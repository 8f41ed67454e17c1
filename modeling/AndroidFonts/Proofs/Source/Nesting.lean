/-
# `AndroidFonts.Proofs.Source.Nesting` — the body that is found and the class it is looked for in

A method is looked for behind the place where the head of the class begins, and nothing else ties it to
the class.  So the body that is found need not be in the class: where the class declares no such method,
it is one of a later class.  What the search does keep is nesting.  A body that opens between the braces
of the class closes there (`exists_nested`), so it lies in the class or behind it, and never across its
end; and it lies in the class if some declaration of the method has a brace in front of the end of the
class, since the listed declarations come in the order of the text (`pairwise_start_findAll`).

The head of the method may begin inside the head of the class, where a name that follows `extends` is
taken for its visibility.  Then the body may be that of the class.
-/
import AndroidFonts.Proofs.Source.Heads
import AndroidFonts.Proofs.Source.Insertion

namespace AndroidFonts

open Text

/-! ## Braces inside braces -/

section

variable {d n e : Nat} {s t p q x y z inner inside after rest : List Char}

/-- Where braces that are open are closed, the innermost one is closed. -/
theorem exists_splitAtClose? (h : depthAfter? (d + 1 + n) s = some e) (he : e ≤ n) :
    ∃ p q, splitAtClose? d s = some (p, q) := by
  induction s generalizing d with
  | nil =>
    obtain rfl := Option.some.inj h
    omega
  | cons c s ih =>
    rcases depth_cases d c with ⟨rfl, rfl⟩ | ⟨d', hdepth, hrest⟩
    · exact ⟨[], _, rfl⟩
    · rw [Nat.add_assoc, hdepth, ← Nat.add_assoc] at h
      obtain ⟨p, q, hsplit⟩ := ih h
      exact ⟨c :: p, q, by rw [hrest, hsplit]; rfl⟩

/-- What opens between two braces that belong together closes between them. -/
theorem exists_nested (hinner : Balanced (x ++ '{' :: y))
    (h : splitAtClose? 0 (y ++ t) = some (inside, after)) : ∃ z, y = inside ++ '}' :: z := by
  obtain ⟨n, hx, hy⟩ := Option.bind_eq_some_iff.1 ((depthAfter?_append 0 x _).symm.trans hinner)
  rw [depthAfter?_open, ← Nat.zero_add (n + 1), Nat.add_comm n, ← Nat.add_assoc] at hy
  obtain ⟨p, q, hsplit⟩ := exists_splitAtClose? hy (Nat.zero_le n)
  obtain ⟨rfl, hdepth, z, rfl⟩ := splitAtClose?_eq_some_iff.1 hsplit
  have hlong : splitAtClose? 0 (p ++ '}' :: z ++ t) = some (p, '}' :: z ++ t) :=
    splitAtClose?_eq_some_iff.2 ⟨List.append_assoc .., hdepth, z ++ t, rfl⟩
  obtain ⟨rfl, -⟩ := Prod.mk.inj (Option.some.inj (hlong.symm.trans h))
  exact ⟨z, rfl⟩

/-- The brace at an offset and the one that closes it. -/
theorem matchDelimiter_eq_some_iff {text : String} {k : Nat} : matchDelimiter text k = some e ↔
    ∃ front inner rest, text.toList = front ++ '{' :: (inner ++ '}' :: rest) ∧
      k = byteLength front ∧ Balanced inner ∧ e = k + 1 + byteLength inner := by
  unfold matchDelimiter
  constructor
  · intro h
    split at h
    · rename_i front r hsplit
      obtain ⟨htext, hk⟩ := splitAtByte?_eq_some_iff.1 hsplit
      obtain ⟨⟨inner, rest⟩, hclose, rfl⟩ := Option.map_eq_some_iff.1 h
      obtain ⟨rfl, hinner, rest, rfl⟩ := splitAtClose?_eq_some_iff.1 hclose
      exact ⟨front, inner, rest, htext, hk, hinner, rfl⟩
    · nomatch h
  · rintro ⟨front, inner, rest, htext, rfl, hinner, rfl⟩
    have hclose : splitAtClose? 0 (inner ++ '}' :: rest) = some (inner, '}' :: rest) :=
      splitAtClose?_eq_some_iff.2 ⟨rfl, hinner, rest, rfl⟩
    rw [htext, splitAtByte?_byteLength]
    simp only [hclose, Option.map_some]

end

/-! ## The order of matches -/

namespace Pattern

variable {p : Pattern} {s : List Char} {n : Nat} {m m' : Match}

theorem start_shift (c : Char) (m : Match) : (m.shift c).start = c.utf8Size + m.start := rfl

theorem pairwise_start_findFrom (p : Pattern) (n : Nat) (s : List Char) :
    (p.findFrom n s).Pairwise fun m m' => m.start < m'.start := by
  have hshift : ∀ {c k s}, (p.findFrom k s).Pairwise (fun m m' => m.start < m'.start) →
      ((p.findFrom k s).map (·.shift c)).Pairwise fun m m' => m.start < m'.start := by
    intro c k s h
    refine List.pairwise_map.2 (h.imp fun hlt => ?_)
    rw [start_shift, start_shift]
    omega
  induction s generalizing n with
  | nil => exact .nil
  | cons c s ih =>
    rcases findFrom_cons_cases p n c s with ⟨-, hwalk⟩ | ⟨m, rfl, hmatch, -, hwalk⟩
    · rw [hwalk]
      exact hshift (ih _)
    · rw [hwalk]
      refine List.pairwise_cons.2 ⟨fun m' hm' => ?_, hshift (ih _)⟩
      obtain ⟨m', -, rfl⟩ := List.mem_map.1 hm'
      rw [start_shift, Match.start, (text_of_matchAt? hmatch).2.1]
      have := c.utf8Size_pos
      rw [byteLength_nil]
      omega

/-- The first listed match of some kind begins before all others of that kind. -/
theorem start_le_of_find?_findAll {kind : Match → Bool} (h : (p.findAll s).find? kind = some m)
    (hm' : m' ∈ p.findAll s) (hkind : kind m' = true) : m.start ≤ m'.start := by
  obtain ⟨-, before, behind, hlist, hbefore⟩ := List.find?_eq_some_iff_append.1 h
  have hsorted := pairwise_start_findFrom p 0 s
  change (p.findAll s).Pairwise _ at hsorted
  rw [hlist] at hm' hsorted
  rcases List.mem_append.1 hm' with hfront | hback
  · have hnot := hbefore m' hfront
    rw [hkind] at hnot
    nomatch hnot
  · rcases List.mem_cons.1 hback with rfl | hback
    · exact Nat.le_refl _
    · exact Nat.le_of_lt (List.rel_of_pairwise_cons (List.pairwise_append.1 hsorted).2.1 hback)

end Pattern

/-! ## Bodies and classes -/

namespace Text

variable {c c' : Char} {p q x y : List Char}

/-- Of two places in a text the one with the smaller offset comes first. -/
theorem exists_of_byteLength_lt (h : p ++ c :: x = q ++ c' :: y)
    (hlt : byteLength p < byteLength q) : ∃ z, q = p ++ c :: z ∧ x = z ++ c' :: y := by
  rcases List.append_eq_append_iff.1 h with ⟨z, rfl, hz⟩ | ⟨z, rfl, -⟩
  · cases z with
    | nil =>
      rw [List.append_nil] at hlt
      omega
    | cons d z =>
      obtain ⟨rfl, hx⟩ := List.cons.inj hz
      exact ⟨z, rfl, hx⟩
  · rw [byteLength_append] at hlt
    omega

end Text

namespace Body

variable {b : Body} {mh : Match} {d : Dialect} {s : List Char} {text className methodName : String}
  {e k : Nat}

/-- A body is found by the leftmost declaration of the class and by the first declaration of the method
that is listed behind its beginning. -/
theorem declarations_of_locate (h : locate text className methodName d = .ok b) : ∃ ch mh,
    (Anchor.classHead className).first? d text.toList = some ch ∧
      ((Anchor.methodHead methodName).all d text.toList).find? (fun m => ch.start < m.start) =
        some mh ∧ firstIn? mh.before (mh.matched ++ mh.after) = some b := by
  obtain ⟨cp, mp, ch, mh, hcp, hch, hmp, hmh, hbody⟩ := locate_eq_ok h
  rw [anchorPattern_eq] at hcp hmp
  obtain rfl := Except.ok.inj hcp
  obtain rfl := Except.ok.inj hmp
  exact ⟨ch, mh, (Anchor.first?_eq ..).trans hch, (Anchor.all_eq ..).symm ▸ hmh, hbody⟩

/-- The first brace behind the beginning of a method head opens the body. -/
theorem exists_of_firstIn? (h : firstIn? mh.before (mh.matched ++ mh.after) = some b)
    (htext : mh.text = s) : ∃ head rest, '{' ∉ head ∧
      s = mh.before ++ head ++ '{' :: (b.inside ++ '}' :: rest) ∧
      splitAtClose? 0 (b.inside ++ '}' :: rest) = some (b.inside, '}' :: rest) ∧
      b.span = ⟨byteLength (mh.before ++ head),
        byteLength (mh.before ++ head) + 1 + byteLength b.inside⟩ := by
  obtain ⟨head, hhead, hbefore, hrest, hsplit⟩ := firstIn?_eq_some_iff.1 h
  obtain ⟨-, -, rest, hafter⟩ := splitAtClose?_eq_some_iff.1 hsplit
  rw [hafter] at hrest hsplit
  have hbrace : byteLength ['{'] = 1 := rfl
  refine ⟨head, rest, hhead, ?_, hsplit, ?_⟩
  · rw [← htext, Match.text, List.append_assoc, hrest, List.append_assoc]
  · rw [span, hbefore, byteLength_append _ ['{'], hbrace, Nat.add_sub_cancel]

/-- A brace that does not stand in front of the beginning of a method head does not stand in front of
the brace of the body. -/
theorem opening_le_of_brace {before head front x y : List Char} (hhead : '{' ∉ head)
    (h : before ++ head ++ '{' :: y = front ++ '{' :: x) (hle : byteLength before ≤ byteLength front) :
    byteLength (before ++ head) ≤ byteLength front := by
  obtain ⟨w, rfl, hw⟩ : ∃ w, front = before ++ w ∧ head ++ '{' :: y = w ++ '{' :: x := by
    rw [List.append_assoc] at h
    rcases List.append_eq_append_iff.1 h with ⟨w, hw, hrest⟩ | ⟨w, rfl, hrest⟩
    · exact ⟨w, hw, hrest⟩
    · cases w with
      | nil => exact ⟨[], by simp, hrest.symm⟩
      | cons c w =>
        have := c.utf8Size_pos
        rw [byteLength_append, byteLength_cons] at hle
        omega
  obtain ⟨w, rfl, -⟩ := exists_append_of_not_mem hhead hw
  simp only [byteLength_append]
  omega

/-- Of two pairs of braces the one that opens later closes first, or opens behind the end of the other
one. -/
theorem closes_within {front inner rest front' inside rest' : List Char}
    (h : front ++ '{' :: (inner ++ '}' :: rest) = front' ++ '{' :: (inside ++ '}' :: rest'))
    (hinner : Balanced inner)
    (hinside : splitAtClose? 0 (inside ++ '}' :: rest') = some (inside, '}' :: rest'))
    (hlt : byteLength front < byteLength front') :
    byteLength front' + 1 + byteLength inside < byteLength front + 1 + byteLength inner ∨
      byteLength front + 1 + byteLength inner < byteLength front' := by
  have hopen : '{'.utf8Size = 1 := rfl
  have hclose : '}'.utf8Size = 1 := rfl
  obtain ⟨z, rfl, hbetween⟩ := exists_of_byteLength_lt h hlt
  rcases List.append_eq_append_iff.1 hbetween with ⟨u, rfl, hu⟩ | ⟨u, rfl, hu⟩
  · cases u with
    | nil => nomatch (List.cons.inj hu).1
    | cons c u =>
      obtain ⟨rfl, -⟩ := List.cons.inj hu
      right
      simp only [byteLength_append, byteLength_cons]
      omega
  · cases u with
    | nil => nomatch (List.cons.inj hu).1
    | cons c u =>
      obtain ⟨rfl, hrest⟩ := List.cons.inj hu
      change inside ++ '}' :: rest' = u ++ '}' :: rest at hrest
      rw [hrest] at hinside
      obtain ⟨v, rfl⟩ := exists_nested hinner hinside
      left
      simp only [byteLength_append, byteLength_cons]
      omega

/-- Where the body is, compared with the class.  It opens behind the brace of the class exactly if the
head of the method begins behind the head of the class.  Then it lies between the braces of the class or
behind them, and between them if a declaration of the method has a brace there. -/
theorem locate_in_class (h : locate text className methodName d = .ok b) : ∃ ch mh,
    (Anchor.classHead className).first? d text.toList = some ch ∧
      ((Anchor.methodHead methodName).all d text.toList).find? (fun m => ch.start < m.start) =
        some mh ∧
      (∃ w, ch.matched = w ++ ['{']) ∧
      (ch.stop - 1 < b.span.opening ↔ ch.stop ≤ mh.start) ∧
      ∀ e, matchDelimiter text (ch.stop - 1) = some e → ch.stop ≤ mh.start →
        (b.span.closing < e ∨ e < b.span.opening) ∧
        ∀ m ∈ (Anchor.methodHead methodName).all d text.toList, ch.start < m.start →
          (∃ p q, text.toList = p ++ '{' :: q ∧ m.start ≤ byteLength p ∧ byteLength p < e) →
            b.span.closing < e := by
  obtain ⟨ch, mh, hch, hmh, hbody⟩ := declarations_of_locate h
  refine ⟨ch, mh, hch, hmh, ?_⟩
  -- the class
  rw [Anchor.first?_eq] at hch
  rw [Anchor.all_eq] at hmh ⊢
  obtain ⟨hcut, hmatch, -⟩ := Pattern.find?_eq_some_iff.1 hch
  obtain ⟨w, hw⟩ := Dialect.exists_of_takes_class (Pattern.takes_of_head? hmatch)
  have hclass : text.toList = ch.before ++ w ++ '{' :: ch.after := by
    rw [hcut, hw]
    simp
  have hstop : ch.stop = byteLength (ch.before ++ w) + 1 := by
    rw [Match.stop, Match.start, hw, byteLength_append, byteLength_append, ← Nat.add_assoc]
    rfl
  -- the body
  obtain ⟨head, rest, hhead, htext, hsplit, hspan⟩ := exists_of_firstIn? hbody
    (Pattern.text_of_mem_findFrom (List.mem_of_find?_eq_some hmh))
  have hstart : mh.start ≤ byteLength (mh.before ++ head) := by
    rw [byteLength_append]
    exact Nat.le_add_right ..
  refine ⟨⟨w, hw⟩, ?_, fun e he hle => ?_⟩
  · rw [hspan, hstop]
    constructor
    · intro hlt
      by_contra hle
      have := opening_le_of_brace hhead (htext.symm.trans hclass)
        (show mh.start ≤ byteLength (ch.before ++ w) by omega)
      change _ < byteLength (mh.before ++ head) at hlt
      omega
    · intro hle
      show _ < byteLength (mh.before ++ head)
      omega
  -- the end of the class
  obtain ⟨front, inner, rest', htext', hfront, hinner, rfl⟩ := matchDelimiter_eq_some_iff.1 he
  have hparts : b.span.closing < ch.stop - 1 + 1 + byteLength inner ∨
      ch.stop - 1 + 1 + byteLength inner < b.span.opening := by
    rw [hspan, hfront]
    exact closes_within (htext'.symm.trans htext) hinner hsplit (by omega)
  refine ⟨hparts, fun m hm hbegins ⟨p, q, hpq, hmp, hpe⟩ => hparts.resolve_right ?_⟩
  have hfirst : mh.start ≤ m.start :=
    Pattern.start_le_of_find?_findAll hmh hm (decide_eq_true hbegins)
  have hopening := opening_le_of_brace hhead (htext.symm.trans hpq)
    (show mh.start ≤ byteLength p by omega)
  rw [hspan]
  show ¬ _ < byteLength (mh.before ++ head)
  omega

/-- A class with the method, and another one that has it as well. -/
def twoClasses : String :=
  "class A\x7bpublic void f()\x7b\x7d\x7dclass B\x7bpublic void f()\x7b\x7d\x7d"

theorem locate_in_class_of_two : ∃ b, locate twoClasses "A" "f" .java = .ok b ∧
    matchDelimiter twoClasses 7 = some 25 ∧ 7 < b.span.opening ∧ b.span.closing < 25 := by
  have hlocate : locate twoClasses "A" "f" .java = .ok ⟨"class A\x7bpublic void f()\x7b".toList, [],
      "\x7d\x7dclass B\x7bpublic void f()\x7b\x7d\x7d".toList⟩ := by decide +kernel
  have hclose : matchDelimiter twoClasses 7 = some 25 := by decide +kernel
  obtain ⟨ch, mh, hch, hmh, -, hopens, hparts⟩ := locate_in_class hlocate
  obtain rfl : ⟨[], "class A\x7b".toList,
      "public void f()\x7b\x7d\x7dclass B\x7bpublic void f()\x7b\x7d\x7d".toList⟩ = ch :=
    Option.some.inj (Eq.trans (by decide +kernel) hch)
  obtain rfl : ⟨"class A\x7b".toList, "public void f(".toList,
      ")\x7b\x7d\x7dclass B\x7bpublic void f()\x7b\x7d\x7d".toList⟩ = mh :=
    Option.some.inj (Eq.trans (by decide +kernel) hmh)
  obtain ⟨-, hinside⟩ := hparts 25 hclose (by decide)
  refine ⟨_, hlocate, hclose, hopens.2 (by decide), ?_⟩
  exact hinside _ (List.mem_of_find?_eq_some hmh) (by decide)
    ⟨"class A\x7bpublic void f()".toList, "\x7d\x7dclass B\x7bpublic void f()\x7b\x7d\x7d".toList,
      by decide +kernel, by decide, by decide⟩

/-- Where the class does not declare the method, the body may be one of a later class; and where the
head of the method begins in the head of the class, it may be that of the class. -/
theorem locate_outside_class :
    (locate "class A\x7b\x7dclass B\x7bpublic void f()\x7b\x7d\x7d" "A" "f" .java).toOption.map span =
        some ⟨32, 33⟩ ∧
      ((Anchor.classHead "A").first? .java
        "class A\x7b\x7dclass B\x7bpublic void f()\x7b\x7d\x7d".toList).map Match.stop = some 8 ∧
      matchDelimiter "class A\x7b\x7dclass B\x7bpublic void f()\x7b\x7d\x7d" 7 = some 8 ∧
    (locate "class A extends public implements f(\x7b\x7d" "A" "f" .java).toOption.map span =
        some ⟨36, 37⟩ ∧
      ((Anchor.classHead "A").first? .java
        "class A extends public implements f(\x7b\x7d".toList).map Match.stop = some 37 ∧
      matchDelimiter "class A extends public implements f(\x7b\x7d" 36 = some 37 := by
  decide +kernel

end Body

end AndroidFonts
