/-
# `AndroidFonts.Proofs.Source.Delimiters` — which brace closes which

`Matched` says, in bytes alone, when a brace closes another: between them stand as many closing as
opening braces, and no beginning of what stands between them has more that close.  Matching finds
exactly that brace (`matchDelimiter_exact`), and finds none only where there is none.

The way goes through the count of open braces as it is kept byte by byte (`closeFrom`), with the case in
which the count would fall below zero as an outcome of its own.  That outcome never comes
(`closeFrom_eq_ok`), since the count ends when it reaches zero.  What the count finds is what
`Closing` describes, one byte at a time.

Two pairs of braces that match are nested or apart: if one opened inside the other and closed outside
it, what stands before its end inside the other would close more than it opens.
-/
import AndroidFonts.Proofs.Source.Nesting
import AndroidFonts.Proofs.Text.Bytes

namespace AndroidFonts

open Text

/-- The byte of an opening brace. -/
def leftBrace : UInt8 := '{'.toUInt8

/-- The byte of a closing brace. -/
def rightBrace : UInt8 := '}'.toUInt8

variable {b : UInt8} {bs inner p rest : List UInt8} {s : List Char} {text : String}
  {d n offset opening closing opening' closing' : Nat}

/-! ## Counting -/

/-- The count of open braces would fall below zero at an offset. -/
structure Underflow where
  offset : Nat
deriving Repr, DecidableEq

/-- Counts open braces over the bytes from an offset on, up to the byte at which the count comes to
zero. -/
def closeFrom : Nat → Nat → List UInt8 → Except Underflow (Option Nat)
  | _, _, [] => .ok none
  | depth, offset, b :: bs =>
    if b = leftBrace then closeFrom (depth + 1) (offset + 1) bs
    else if b = rightBrace then
      if depth = 0 then .error ⟨offset⟩
      else if depth = 1 then .ok (some offset)
      else closeFrom (depth - 1) (offset + 1) bs
    else closeFrom depth (offset + 1) bs

theorem closeFrom_left (d offset : Nat) (bs : List UInt8) :
    closeFrom d offset (leftBrace :: bs) = closeFrom (d + 1) (offset + 1) bs := by
  rw [closeFrom, if_pos rfl]

theorem closeFrom_right (d offset : Nat) (bs : List UInt8) :
    closeFrom (d + 2) offset (rightBrace :: bs) = closeFrom (d + 1) (offset + 1) bs := by
  rw [closeFrom, if_neg (by decide), if_pos rfl, if_neg (by omega), if_neg (by omega)]
  rfl

theorem closeFrom_last (offset : Nat) (bs : List UInt8) :
    closeFrom 1 offset (rightBrace :: bs) = .ok (some offset) := by
  rw [closeFrom, if_neg (by decide), if_pos rfl, if_neg (by decide), if_pos rfl]

theorem closeFrom_other (hleft : b ≠ leftBrace) (hright : b ≠ rightBrace) (d offset : Nat)
    (bs : List UInt8) : closeFrom d offset (b :: bs) = closeFrom d (offset + 1) bs := by
  rw [closeFrom, if_neg hleft, if_neg hright]

/-- Bytes that are no braces are passed over. -/
theorem closeFrom_append (hleft : leftBrace ∉ p) (hright : rightBrace ∉ p) (d offset : Nat)
    (bs : List UInt8) : closeFrom d offset (p ++ bs) = closeFrom d (offset + p.length) bs := by
  induction p generalizing offset with
  | nil => rfl
  | cons b p ih =>
    obtain ⟨hl, hleft⟩ := not_or.1 (mt List.mem_cons.2 hleft)
    obtain ⟨hr, hright⟩ := not_or.1 (mt List.mem_cons.2 hright)
    rw [List.cons_append, closeFrom_other (Ne.symm hl) (Ne.symm hr), ih hleft hright,
      List.length_cons, Nat.add_assoc, Nat.add_comm 1]

theorem leftBrace_not_mem {c : Char} (h : c ≠ '{') : leftBrace ∉ String.utf8EncodeChar c :=
  fun hmem => h (eq_of_toUInt8_mem (by decide) hmem)

theorem rightBrace_not_mem {c : Char} (h : c ≠ '}') : rightBrace ∉ String.utf8EncodeChar c :=
  fun hmem => h (eq_of_toUInt8_mem (by decide) hmem)

/-- Counting never falls below zero, and ends at the brace that closes what is open. -/
theorem closeFrom_eq_ok (d offset : Nat) (s : List Char) : closeFrom (d + 1) offset (bytes s) =
    .ok ((splitAtClose? d s).map fun (p, _) => offset + byteLength p) := by
  induction s generalizing d offset with
  | nil => rfl
  | cons c s ih =>
    have hstep : ∀ {e}, splitAtClose? d (c :: s) = (splitAtClose? e s).map (fun (p, q) => (c :: p, q)) →
        closeFrom (d + 1) offset (bytes (c :: s)) =
          closeFrom (e + 1) (offset + c.utf8Size) (bytes s) →
        closeFrom (d + 1) offset (bytes (c :: s)) =
          .ok ((splitAtClose? d (c :: s)).map fun (p, _) => offset + byteLength p) := by
      intro e hsplit hcount
      rw [hcount, ih, hsplit, Option.map_map]
      refine congrArg (fun f => Except.ok ((splitAtClose? e s).map f)) (funext fun (p, _) => ?_)
      exact Nat.add_assoc ..
    by_cases hclose : c = '}'
    · obtain rfl := hclose
      cases d with
      | zero => exact closeFrom_last offset (bytes s)
      | succ d => exact hstep (splitAtClose?_close d s) (closeFrom_right d offset (bytes s))
    by_cases hopen : c = '{'
    · obtain rfl := hopen
      exact hstep (splitAtClose?_open d s) (closeFrom_left (d + 1) offset (bytes s))
    · refine hstep (splitAtClose?_other hopen hclose d s) ?_
      rw [bytes_cons, closeFrom_append (leftBrace_not_mem hopen) (rightBrace_not_mem hclose),
        String.length_utf8EncodeChar]

/-- Matching is counting from behind the brace on. -/
theorem closeFrom_matchDelimiter (h : (bytesOf text)[opening]? = some leftBrace) :
    closeFrom 1 (opening + 1) ((bytesOf text).drop (opening + 1)) =
      .ok (matchDelimiter text opening) := by
  rw [bytesOf_eq] at h ⊢
  obtain ⟨front, rest, htext, rfl⟩ := (getElem?_bytes_eq_some_iff (by decide)).1 h
  have hdrop : (bytes text.toList).drop (byteLength front + 1) = bytes rest := by
    rw [htext, List.append_cons, bytes_append]
    exact List.drop_left' (by rw [length_bytes, byteLength_append]; rfl)
  rw [hdrop, closeFrom_eq_ok]
  unfold matchDelimiter
  rw [htext, splitAtByte?_byteLength]
  rfl

/-! ## What closes -/

/-- Whether bytes lead from so many open braces back to none, without closing more than is open on
the way. -/
structure Closing (d : Nat) (bs : List UInt8) : Prop where
  count_eq : bs.count rightBrace = bs.count leftBrace + d
  count_le : ∀ p, p <+: bs → p.count rightBrace ≤ p.count leftBrace + d

theorem closing_nil : Closing d [] ↔ d = 0 := by
  constructor
  · intro h
    have := h.count_eq
    simpa using this.symm
  · rintro rfl
    refine ⟨rfl, fun p hp => ?_⟩
    obtain rfl := List.prefix_nil.1 hp
    exact Nat.le_refl _

/-- What holds of the beginnings of some bytes holds of none of them and of those that go on with the
first byte. -/
theorem forall_prefix_cons {P : List UInt8 → Prop} :
    (∀ p, p <+: b :: bs → P p) ↔ P [] ∧ ∀ p, p <+: bs → P (b :: p) := by
  constructor
  · exact fun h => ⟨h [] List.nil_prefix, fun p hp => h _ ((List.prefix_cons_inj b).2 hp)⟩
  · rintro ⟨hnil, hcons⟩ p hp
    rcases List.prefix_cons_iff.1 hp with rfl | ⟨p', rfl, hp'⟩
    · exact hnil
    · exact hcons p' hp'

/-- A byte in front changes the number of open braces, and nothing else. -/
theorem closing_cons {e : Nat} (h : [b].count leftBrace + d = [b].count rightBrace + e) :
    Closing d (b :: bs) ↔ Closing e bs := by
  have hl : ∀ p, (b :: p).count leftBrace = [b].count leftBrace + p.count leftBrace := fun p =>
    (List.count_append : ([b] ++ p).count _ = _)
  have hr : ∀ p, (b :: p).count rightBrace = [b].count rightBrace + p.count rightBrace := fun p =>
    (List.count_append : ([b] ++ p).count _ = _)
  constructor
  · rintro ⟨heq, hle⟩
    refine ⟨by have := hl bs; have := hr bs; omega, fun p hp => ?_⟩
    have hp := (forall_prefix_cons.1 hle).2 p hp
    have := hl p
    have := hr p
    omega
  · rintro ⟨heq, hle⟩
    refine ⟨by have := hl bs; have := hr bs; omega,
      forall_prefix_cons.2 ⟨Nat.zero_le _, fun p hp => ?_⟩⟩
    have hp := hle p hp
    have := hl p
    have := hr p
    omega

theorem closing_left : Closing d (leftBrace :: bs) ↔ Closing (d + 1) bs := by
  refine closing_cons ?_
  rw [show [leftBrace].count leftBrace = 1 from by decide,
    show [leftBrace].count rightBrace = 0 from by decide]
  omega

theorem closing_right : Closing (d + 1) (rightBrace :: bs) ↔ Closing d bs := by
  refine closing_cons ?_
  rw [show [rightBrace].count leftBrace = 0 from by decide,
    show [rightBrace].count rightBrace = 1 from by decide]
  omega

theorem not_closing_right : ¬ Closing 0 (rightBrace :: bs) := fun h =>
  absurd ((forall_prefix_cons.1 h.count_le).2 [] List.nil_prefix) (by decide)

theorem closing_other (hleft : b ≠ leftBrace) (hright : b ≠ rightBrace) :
    Closing d (b :: bs) ↔ Closing d bs := by
  refine closing_cons ?_
  rw [List.count_cons_of_ne hleft, List.count_cons_of_ne hright]
  rfl

/-- Counting ends at the first brace behind bytes that close what is open. -/
theorem closeFrom_eq_some_iff : closeFrom (d + 1) offset bs = .ok (some closing) ↔
    ∃ inner rest, bs = inner ++ rightBrace :: rest ∧ closing = offset + inner.length ∧
      Closing d inner := by
  induction bs generalizing d offset with
  | nil =>
    constructor
    · nofun
    · rintro ⟨inner, rest, hbs, -⟩
      simp at hbs
  | cons b bs ih =>
    -- a byte that does not end the count belongs to what stands between the braces
    have hstep : ∀ {e}, closeFrom (d + 1) offset (b :: bs) = closeFrom (e + 1) (offset + 1) bs →
        (∀ inner, Closing d (b :: inner) ↔ Closing e inner) → (b = rightBrace → d ≠ 0) →
        (closeFrom (d + 1) offset (b :: bs) = .ok (some closing) ↔
          ∃ inner rest, b :: bs = inner ++ rightBrace :: rest ∧ closing = offset + inner.length ∧
            Closing d inner) := by
      intro e hcount hclosing hnot
      rw [hcount, ih]
      constructor
      · rintro ⟨inner, rest, rfl, rfl, hinner⟩
        refine ⟨b :: inner, rest, rfl, ?_, (hclosing inner).2 hinner⟩
        rw [List.length_cons]
        omega
      · rintro ⟨inner, rest, hbs, rfl, hinner⟩
        cases inner with
        | nil => exact absurd (closing_nil.1 hinner) (hnot (List.cons.inj hbs).1)
        | cons b' inner =>
          obtain ⟨rfl, rfl⟩ := List.cons.inj hbs
          refine ⟨inner, rest, rfl, ?_, (hclosing inner).1 hinner⟩
          rw [List.length_cons]
          omega
    by_cases hright : b = rightBrace
    · obtain rfl := hright
      cases d with
      | zero =>
        rw [closeFrom_last]
        constructor
        · rintro ⟨⟩
          exact ⟨[], bs, rfl, rfl, closing_nil.2 rfl⟩
        · rintro ⟨inner, rest, hbs, rfl, hinner⟩
          cases inner with
          | nil => rfl
          | cons b' inner =>
            obtain ⟨rfl, -⟩ := List.cons.inj hbs
            exact absurd hinner not_closing_right
      | succ d =>
        exact hstep (closeFrom_right d offset bs) (fun _ => closing_right) fun _ => Nat.succ_ne_zero d
    by_cases hleft : b = leftBrace
    · obtain rfl := hleft
      exact hstep (closeFrom_left _ offset bs) (fun _ => closing_left) fun h => absurd h hright
    · exact hstep (closeFrom_other hleft hright _ offset bs) (fun _ => closing_other hleft hright)
        fun h => absurd h hright

/-! ## Braces that match -/

/-- The bytes strictly between two offsets. -/
def between (bs : List UInt8) (opening closing : Nat) : List UInt8 :=
  (bs.drop (opening + 1)).take (closing - (opening + 1))

/-- Whether the brace at one offset is closed by the brace at another. -/
structure Matched (bs : List UInt8) (opening closing : Nat) : Prop where
  opens : bs[opening]? = some leftBrace
  lt : opening < closing
  closes : bs[closing]? = some rightBrace
  count_eq : (between bs opening closing).count leftBrace = (between bs opening closing).count rightBrace
  count_le : ∀ p, p <+: between bs opening closing → p.count rightBrace ≤ p.count leftBrace

theorem drop_of_getElem? (h : bs[n]? = some b) : bs.drop n = b :: bs.drop (n + 1) := by
  obtain ⟨hn, rfl⟩ := List.getElem?_eq_some_iff.1 h
  exact List.drop_eq_getElem_cons hn

/-- What stands between two offsets is cut at a byte between them. -/
theorem between_split (hlt : opening < n) (hlt' : n < closing) (h : bs[n]? = some b) :
    between bs opening closing = between bs opening n ++ b :: between bs n closing := by
  have hlength : closing - (opening + 1) = (n - (opening + 1)) + (closing - (n + 1) + 1) := by omega
  have hdrop : (bs.drop (opening + 1)).drop (n - (opening + 1)) = b :: bs.drop (n + 1) := by
    rw [List.drop_drop, show opening + 1 + (n - (opening + 1)) = n by omega, drop_of_getElem? h]
  unfold between
  rw [hlength, List.take_add, hdrop, List.take_succ_cons]

theorem prefix_between (hle : closing ≤ closing') :
    between bs opening closing <+: between bs opening closing' :=
  List.take_prefix_take_left (by omega)

/-- A brace is closed by the one at which counting ends. -/
theorem matched_iff : Matched bs opening closing ↔ bs[opening]? = some leftBrace ∧
    closeFrom 1 (opening + 1) (bs.drop (opening + 1)) = .ok (some closing) := by
  rw [closeFrom_eq_some_iff (d := 0)]
  constructor
  · rintro ⟨hopens, hlt, hcloses, heq, hle⟩
    have hdrop : (bs.drop (opening + 1)).drop (closing - (opening + 1)) =
        rightBrace :: bs.drop (closing + 1) := by
      rw [List.drop_drop, show opening + 1 + (closing - (opening + 1)) = closing by omega,
        drop_of_getElem? hcloses]
    have hlength : (between bs opening closing).length = closing - (opening + 1) := by
      obtain ⟨hend, -⟩ := List.getElem?_eq_some_iff.1 hcloses
      rw [between, List.length_take, List.length_drop]
      omega
    refine ⟨hopens, between bs opening closing, bs.drop (closing + 1), ?_, ?_, heq.symm, hle⟩
    · rw [← hdrop]
      exact (List.take_append_drop ..).symm
    · omega
  · rintro ⟨hopens, inner, rest, hbs, rfl, heq, hle⟩
    have hbetween : between bs opening (opening + 1 + inner.length) = inner := by
      rw [between, hbs, Nat.add_sub_cancel_left]
      exact List.take_left' rfl
    have hcloses : bs[opening + 1 + inner.length]? = some rightBrace := by
      rw [← List.getElem?_drop, hbs, List.getElem?_append_right (Nat.le_refl _), Nat.sub_self]
      rfl
    exact ⟨hopens, by omega, hcloses, hbetween.symm ▸ heq.symm, hbetween.symm ▸ hle⟩

/-- Matching finds the brace that closes, wherever there is one. -/
theorem matchDelimiter_eq_some_iff_matched :
    matchDelimiter text opening = some closing ↔ Matched (bytesOf text) opening closing := by
  rw [matched_iff]
  constructor
  · intro h
    have hopens : (bytesOf text)[opening]? = some leftBrace := by
      obtain ⟨front, inner, rest, htext, hk, -⟩ := matchDelimiter_eq_some_iff.1 h
      rw [bytesOf_eq]
      exact (getElem?_bytes_eq_some_iff (by decide)).2 ⟨front, _, htext, hk⟩
    exact ⟨hopens, by rw [closeFrom_matchDelimiter hopens, h]⟩
  · rintro ⟨hopens, hcount⟩
    rw [closeFrom_matchDelimiter hopens] at hcount
    exact Except.ok.inj hcount

/-- Of two pairs that match, the one that opens later is behind the other or inside it. -/
theorem Matched.laminar (h : Matched bs opening closing) (h' : Matched bs opening' closing')
    (hlt : opening < opening') : closing < opening' ∨ closing' < closing := by
  refine or_iff_not_imp_left.2 fun hbehind => Nat.lt_of_not_le fun hcross => ?_
  have hinside : opening' < closing := by
    refine Nat.lt_of_le_of_ne (Nat.le_of_not_lt hbehind) ?_
    rintro rfl
    exact absurd (Option.some.inj (h'.opens.symm.trans h.closes)) (by decide)
  -- the inner part of the second pair up to the end of the first closes no more than it opens
  have htail := h'.count_le _ (prefix_between hcross)
  have hsplit := between_split hlt hinside h'.opens
  have hhead := h.count_le _ ⟨_, hsplit.symm⟩
  have hcount := h.count_eq
  rw [hsplit, List.count_append, List.count_append, List.count_cons_self,
    List.count_cons_of_ne (by decide)] at hcount
  omega

/-- Two pairs of offsets are the same, apart or nested. -/
def Laminar (opening closing opening' closing' : Nat) : Prop :=
  opening = opening' ∧ closing = closing' ∨ closing < opening' ∨ closing' < opening ∨
    opening < opening' ∧ closing' < closing ∨ opening' < opening ∧ closing < closing'

/-- Matching is exact: it finds the brace that closes the one at an offset, and none only if there is
none; the count of open braces never falls below zero; and two pairs that it finds in one text are the
same, apart or nested. -/
theorem matchDelimiter_exact (text : String) (opening : Nat) :
    (∀ closing, matchDelimiter text opening = some closing ↔
      Matched (bytesOf text) opening closing) ∧
    (matchDelimiter text opening = none ↔ ∀ closing, ¬ Matched (bytesOf text) opening closing) ∧
    ((bytesOf text)[opening]? = some leftBrace →
      closeFrom 1 (opening + 1) ((bytesOf text).drop (opening + 1)) =
        .ok (matchDelimiter text opening)) ∧
    ∀ closing opening' closing', matchDelimiter text opening = some closing →
      matchDelimiter text opening' = some closing' → Laminar opening closing opening' closing' := by
  refine ⟨fun closing => matchDelimiter_eq_some_iff_matched, ?_, closeFrom_matchDelimiter, ?_⟩
  · simp only [← matchDelimiter_eq_some_iff_matched]
    exact Option.eq_none_iff_forall_ne_some
  · intro closing opening' closing' h h'
    have hmatched := matchDelimiter_eq_some_iff_matched.1 h
    have hmatched' := matchDelimiter_eq_some_iff_matched.1 h'
    unfold Laminar
    rcases Nat.lt_trichotomy opening opening' with hlt | rfl | hlt
    · have := hmatched.laminar hmatched' hlt
      omega
    · exact .inl ⟨rfl, Option.some.inj (h.symm.trans h')⟩
    · have := hmatched'.laminar hmatched hlt
      omega

/-- A text with letters of two and three bytes: a pair of braces with another in it, a pair behind them,
and a brace that nothing closes. -/
def bracedText : String := "\x7bé\x7bж\x7d€\x7d\x7b\x7d\x7b"

theorem matchDelimiter_exact_nested :
    Matched (bytesOf bracedText) 0 10 ∧ Matched (bytesOf bracedText) 3 6 ∧
      closeFrom 1 1 ((bytesOf bracedText).drop 1) = .ok (some 10) ∧ Laminar 0 10 3 6 ∧
      ∀ closing, ¬ Matched (bytesOf bracedText) 13 closing := by
  have houter : matchDelimiter bracedText 0 = some 10 := by decide +kernel
  have hinner : matchDelimiter bracedText 3 = some 6 := by decide +kernel
  have hopen : matchDelimiter bracedText 13 = none := by decide +kernel
  obtain ⟨hmatched, -, hcount, hlaminar⟩ := matchDelimiter_exact bracedText 0
  have hpair := (hmatched 10).1 houter
  refine ⟨hpair, ((matchDelimiter_exact bracedText 3).1 6).1 hinner, ?_,
    hlaminar 10 3 6 houter hinner, (matchDelimiter_exact bracedText 13).2.1.1 hopen⟩
  rw [hcount hpair.opens, houter]

end AndroidFonts
