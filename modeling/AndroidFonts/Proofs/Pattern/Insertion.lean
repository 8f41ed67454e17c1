/-
# `AndroidFonts.Proofs.Pattern.Insertion` — what is written into a text leaves matches before it alone

Where no match of a pattern runs on into what is written into a text, the matches before that place
are those that were there (`sameMatches_of_forall_le`).  A text that stops a pattern is one that no
match runs into, whatever stands before it; then the leftmost match stays (`find?_insert`), and so does
the first one behind some other place (`firstWhere_findAll_insert`).

Where only an occurrence is asked for, less is needed.  A match that cannot take up a character
stops before it, and looks no further than that character (`occursIn_append_of_avoids`).
-/
import AndroidFonts.Proofs.Pattern.Leftmost
import AndroidFonts.Proofs.Pattern.Taking

namespace AndroidFonts

open Text

namespace Pattern

variable {p q : Pattern} {s u x y z r a b w : List Char} {c d : Char} {m : Match} {n : Nat}

/-! ## At the front of a text -/

/-- Where no match runs beyond a place, all matches are those that stop before it. -/
theorem ends_of_forall_le (hp : p.isLocal = true)
    (hle : ∀ r ∈ p.ends (u ++ z), z.length ≤ r.length) :
    p.ends (u ++ z) = (p.ends u).map (· ++ z) := by
  rw [← ends_append hp]
  exact (List.filter_eq_self.2 fun r hr => decide_eq_true (hle r hr)).symm

theorem head?_ends_of_forall_le (hp : p.isLocal = true)
    (hle : ∀ r ∈ p.ends (u ++ z), z.length ≤ r.length)
    (h : (p.ends (u ++ y)).head? = some (a ++ y)) : (p.ends (u ++ z)).head? = some (a ++ z) := by
  have hfilter : (notBeyond y (p.ends (u ++ y))).head? = some (a ++ y) := by
    cases hends : p.ends (u ++ y) with
    | nil =>
      rw [hends] at h
      nomatch h
    | cons r rs =>
      rw [hends] at h
      obtain rfl := Option.some.inj h
      rw [notBeyond_cons_of_le (by rw [List.length_append]; omega)]
      rfl
  rw [ends_append hp, List.head?_map, Option.map_eq_some_iff] at hfilter
  obtain ⟨a', ha', heq⟩ := hfilter
  rw [ends_of_forall_le hp hle, List.head?_map, ha', List.append_cancel_right heq]
  rfl

theorem ends_eq_nil_of_forall_le (hp : p.isLocal = true)
    (hle : ∀ r ∈ p.ends (u ++ z), z.length ≤ r.length) (h : p.ends (u ++ y) = []) :
    p.ends (u ++ z) = [] := by
  have hfront := ends_append hp u y
  rw [h] at hfront
  rw [ends_of_forall_le hp hle, List.map_eq_nil_iff.1 hfront.symm]
  rfl

/-- What no match runs into may be exchanged: the matches in front of it stay the same. -/
theorem sameMatches_of_forall_le (hp : p.isLocal = true)
    (hle : ∀ r ∈ p.ends (u ++ (a ++ z)), z.length ≤ r.length) :
    p.SameMatches u (a ++ y) (a ++ z) := by
  rw [← List.append_assoc] at hle
  refine ⟨fun h => ?_, fun m h hm => ?_⟩
  · rw [matchAt?_eq_none_iff, ← List.append_assoc] at h ⊢
    exact ends_eq_nil_of_forall_le hp hle h
  · obtain ⟨b, w, r⟩ := m
    obtain ⟨rfl, htext, hr⟩ := matchAt?_eq_some_iff.1 h
    obtain ⟨v, rfl⟩ : ∃ v, u = w ++ v := by
      rcases List.append_eq_append_iff.1 htext with ⟨v, hv, -⟩ | ⟨v, hv, -⟩
      · have := congrArg List.length hv
        rw [List.length_append] at this
        change w.length ≤ u.length at hm
        obtain rfl := List.length_eq_zero_iff.1 (show v.length = 0 by omega)
        exact ⟨[], by rw [hv]; simp⟩
      · exact ⟨v, hv⟩
    rw [List.append_assoc] at htext
    obtain rfl := List.append_cancel_left htext
    rw [← List.append_assoc, ← List.append_assoc] at hr
    have hnew := head?_ends_of_forall_le hp hle hr
    refine ⟨⟨[], w, v ++ a ++ z⟩, matchAt?_eq_some_iff.2 ⟨rfl, by simp, ?_⟩, rfl⟩
    rw [← List.append_assoc]
    exact hnew

/-! ## Texts that stop a pattern -/

/-- The leftmost match stays the leftmost match when something is written behind it that stops the
pattern. -/
theorem find?_insert (hp : p.isLocal = true) (hx : p.Stops x)
    (h : p.find? (b ++ w ++ a ++ y) = some ⟨b, w, a ++ y⟩) :
    p.find? (b ++ w ++ a ++ (x ++ y)) = some ⟨b, w, a ++ (x ++ y)⟩ := by
  obtain ⟨-, hr, hbefore⟩ := find?_eq_some_iff.1 h
  refine find?_eq_some_iff.2 ⟨by simp, ?_, fun v u hvu hu => ?_⟩
  · rw [← List.append_assoc] at hr ⊢
    exact head?_ends_of_forall_le hp (hx (w ++ a) y) hr
  · have hnone := hbefore v u hvu hu
    rw [← List.append_assoc, ← List.append_assoc] at hnone ⊢
    exact ends_eq_nil_of_forall_le hp (hx (u ++ w ++ a) y) hnone

/-- The first listed match that begins behind some place stays that when something is written behind
it that stops the pattern. -/
theorem firstWhere_findAll_insert (hp : p.isLocal = true) (hx : p.Stops x)
    {begins : List Char → Bool}
    (h : firstWhere begins (p.findAll (b ++ w ++ a ++ y)) = some ⟨b, w, a ++ y⟩) :
    firstWhere begins (p.findAll (b ++ w ++ a ++ (x ++ y))) = some ⟨b, w, a ++ (x ++ y)⟩ := by
  have hmem := mem_of_firstWhere h
  obtain ⟨-, -, hr⟩ := matchAt?_eq_some_iff.1 (matchAt?_of_mem_findFrom hmem)
  change (p.ends (w ++ (a ++ y))).head? = some (a ++ y) at hr
  have hsame : ∀ v u, b = v ++ u → u ≠ [] →
      p.SameMatches u (w ++ a ++ y) (w ++ a ++ (x ++ y)) := fun v u _ _ =>
    sameMatches_of_forall_le hp fun r hr => hx (u ++ (w ++ a)) y r (by rwa [List.append_assoc])
  have hmatch : p.matchAt? (w ++ a ++ (x ++ y)) = some ⟨[], w, a ++ (x ++ y)⟩ := by
    refine matchAt?_eq_some_iff.2 ⟨rfl, List.append_assoc .., ?_⟩
    rw [← List.append_assoc] at hr
    exact head?_ends_of_forall_le hp (hx (w ++ a) y) hr
  rw [List.append_assoc b, List.append_assoc b] at h ⊢
  exact firstWhere_findFrom_congr hsame hmatch (le_of_mem_findFrom hmem).1 h

/-! ## Occurrences -/

/-- A pattern occurs where it matches at some place. -/
theorem occursIn_iff : p.occursIn s = true ↔ ∃ v w, s = v ++ w ∧ p.ends w ≠ [] := by
  constructor
  · intro h
    obtain ⟨m, hm⟩ := Option.isSome_iff_exists.1 h
    clear h
    induction s generalizing m with
    | nil =>
      rcases find?_cases hm with hmatch | ⟨c, r, m', hcons, -⟩
      · exact ⟨[], [], rfl, exists_matchAt?_iff.1 ⟨m, hmatch⟩⟩
      · nomatch hcons
    | cons c s ih =>
      rcases find?_cases hm with hmatch | ⟨c', r, m', hcons, -, hrest, -⟩
      · exact ⟨[], c :: s, rfl, exists_matchAt?_iff.1 ⟨m, hmatch⟩⟩
      · obtain ⟨rfl, rfl⟩ := List.cons.inj hcons
        obtain ⟨v, w, rfl, hw⟩ := ih m' hrest
        exact ⟨c :: v, w, rfl, hw⟩
  · rintro ⟨v, w, rfl, hw⟩
    unfold occursIn
    induction v with
    | nil =>
      obtain ⟨m, hm⟩ := exists_matchAt?_iff.2 hw
      rw [List.nil_append, find?_of_matchAt? hm]
      rfl
    | cons c v ih =>
      cases hmatch : p.matchAt? (c :: (v ++ w)) with
      | some m =>
        rw [List.cons_append, find?_of_matchAt? hmatch]
        rfl
      | none =>
        rw [List.cons_append, find?_cons_of_none hmatch, Option.isSome_map]
        exact ih

theorem occursIn_append_left (v : List Char) (h : p.occursIn s = true) :
    p.occursIn (v ++ s) = true := by
  obtain ⟨v', w, rfl, hw⟩ := occursIn_iff.1 h
  exact occursIn_iff.2 ⟨v ++ v', w, (List.append_assoc ..).symm, hw⟩

/-- Whether no match takes up a character, or looks for the end of the text. -/
def avoids (c : Char) : Pattern → Bool
  | .empty => true
  | .one set => !set.has c
  | .many set => !set.has c
  | .seq p q => avoids c p && avoids c q
  | .alt p q => avoids c p && avoids c q
  | .opt p => avoids c p
  | .star _ => false
  | .lineEnd => true
  | .textEnd => false

theorem not_mem_of_avoids (hp : p.avoids c = true) (h : Takes p w r) : c ∉ w := by
  induction h with
  | empty => exact List.not_mem_nil
  | one hd =>
    intro hc
    rw [avoids, List.mem_singleton.1 hc, hd] at hp
    nomatch hp
  | many hw =>
    intro hc
    rw [avoids, hw c hc] at hp
    nomatch hp
  | seq _ _ ihp ihq =>
    obtain ⟨hp, hq⟩ := (Bool.and_eq_true _ _).mp hp
    exact fun hc => (List.mem_append.1 hc).elim (ihp hp) (ihq hq)
  | left _ ih => exact ih ((Bool.and_eq_true _ _).mp hp).1
  | right _ ih => exact ih ((Bool.and_eq_true _ _).mp hp).2
  | once _ ih => exact ih hp
  | never => exact List.not_mem_nil
  | stop => nomatch hp
  | again => nomatch hp
  | feed => exact List.not_mem_nil
  | last => exact List.not_mem_nil
  | textEnd => nomatch hp

/-- A pattern that does not ask for the end of the text looks no further than the character behind
what it takes up. -/
theorem takes_of_avoids (hp : p.avoids c = true) (h : Takes p w (a ++ [d])) (z : List Char) :
    Takes p w (a ++ d :: z) := by
  generalize hr : a ++ [d] = r at h
  induction h generalizing a with
  | empty => exact .empty
  | one hc => exact .one hc
  | many hw => exact .many hw
  | @seq p q b b' r _ _ ihp ihq =>
    obtain ⟨hp, hq⟩ := (Bool.and_eq_true _ _).mp hp
    have hfirst := ihp hp (a := b' ++ a) (by rw [← hr, List.append_assoc])
    rw [List.append_assoc] at hfirst
    exact .seq hfirst (ihq hq hr)
  | left _ ih => exact .left (ih ((Bool.and_eq_true _ _).mp hp).1 hr)
  | right _ ih => exact .right (ih ((Bool.and_eq_true _ _).mp hp).2 hr)
  | once _ ih => exact .once (ih hp hr)
  | never => exact .never
  | stop => nomatch hp
  | again => nomatch hp
  | feed =>
    cases a with
    | nil =>
      obtain ⟨rfl, -⟩ := List.cons.inj hr
      exact .feed
    | cons e a =>
      obtain ⟨rfl, -⟩ := List.cons.inj hr
      exact .feed
  | last => exact absurd hr (List.append_ne_nil_of_right_ne_nil _ (List.cons_ne_nil _ _))
  | textEnd => nomatch hp

/-- What stands behind a character that a pattern avoids has no part in its occurrences before. -/
theorem occursIn_append_of_avoids (hp : p.avoids c = true) (hnil : p.ends [] = [])
    (h : p.occursIn (u ++ [c]) = true) (z : List Char) : p.occursIn (u ++ c :: z) = true := by
  obtain ⟨v, t, hvt, ht⟩ := occursIn_iff.1 h
  rcases List.eq_nil_or_concat' t with rfl | ⟨t, d, rfl⟩
  · exact absurd hnil ht
  · rw [← List.append_assoc] at hvt
    obtain ⟨rfl, hd⟩ := List.append_inj' hvt rfl
    obtain rfl := (List.cons.inj hd).1
    obtain ⟨r, hr⟩ := List.exists_mem_of_ne_nil _ ht
    obtain ⟨w, htext, hw⟩ := mem_ends_iff.1 hr
    -- the avoided character is not taken up, so it stands in what remains
    have hrest : ∃ a, t = w ++ a ∧ r = a ++ [c] := by
      rcases List.append_eq_append_iff.1 htext with ⟨b, hb, hc⟩ | ⟨a, ha, hr'⟩
      · cases b with
        | nil => exact ⟨[], by rw [hb, List.append_nil, List.append_nil], hc.symm⟩
        | cons e b =>
          obtain ⟨rfl, -⟩ := List.cons.inj hc
          refine absurd ?_ (not_mem_of_avoids hp hw)
          rw [hb]
          exact List.mem_append_right _ List.mem_cons_self
      · exact ⟨a, ha, hr'⟩
    obtain ⟨a, rfl, rfl⟩ := hrest
    have hmem := mem_ends_of_takes (takes_of_avoids hp hw z)
    exact occursIn_iff.2 ⟨v, w ++ (a ++ c :: z), by simp, List.ne_nil_of_mem hmem⟩

end Pattern

end AndroidFonts
