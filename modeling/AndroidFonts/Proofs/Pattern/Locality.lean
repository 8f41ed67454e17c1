/-
# `AndroidFonts.Proofs.Pattern.Locality` — what is written into a text leaves matches before it alone

A pattern without repetitions of groups and without tests for an end looks at no more than it takes
up.  So the matches that stop before some place do not depend on what follows there
(`ends_append`), in the order of preference too.  What may change is that a match runs on into the
new text.  A text that stops a pattern (`Stops`) is one that no match runs into, whatever stands
before and after it; then the matches before it are exactly those that were there.

Whether a text stops a pattern is found out by reading it: `residuals` lists what can be left of a
pattern at any place, `after` what is left of it one character on, and `dead` reads the text with all
of them at once until nothing is left (`stops_of_dead`).
-/
import AndroidFonts.Pattern.Basic
import Mathlib.Data.List.Basic

namespace AndroidFonts

open Text

namespace Pattern

variable {p q k : Pattern} {set : CharSet} {s u x y z r : List Char} {c : Char}

/-! ## Matches that stop before a place -/

/-- Whether a pattern looks at no more than it takes up. -/
def isLocal : Pattern → Bool
  | .empty => true
  | .one _ => true
  | .many _ => true
  | .seq p q => isLocal p && isLocal q
  | .alt p q => isLocal p && isLocal q
  | .opt p => isLocal p
  | .star _ => false
  | .lineEnd => false
  | .textEnd => false

/-- The remainders that are at least as long as `y`. -/
def notBeyond (y : List Char) (rs : List (List Char)) : List (List Char) :=
  rs.filter fun r => y.length ≤ r.length

theorem notBeyond_cons_of_le (h : y.length ≤ r.length) (rs : List (List Char)) :
    notBeyond y (r :: rs) = r :: notBeyond y rs :=
  List.filter_cons_of_pos (decide_eq_true h)

theorem notBeyond_eq_nil {rs : List (List Char)} (h : ∀ r ∈ rs, r.length < y.length) :
    notBeyond y rs = [] := by
  refine List.filter_eq_nil_iff.2 fun r hr hle => ?_
  have := of_decide_eq_true hle
  have := h r hr
  omega

theorem notBeyond_append (y : List Char) (rs rs' : List (List Char)) :
    notBeyond y (rs ++ rs') = notBeyond y rs ++ notBeyond y rs' := List.filter_append ..

theorem length_le_of_mem_ends (h : r ∈ p.ends s) : r.length ≤ s.length :=
  (ends_suffix h).length_le

theorem stops_append (set : CharSet) (u y : List Char) :
    notBeyond y (stops set (u ++ y)) = (stops set u).map (· ++ y) := by
  induction u with
  | nil =>
    cases y with
    | nil => rfl
    | cons c r =>
      have hrest : notBeyond (c :: r) (if set.has c then stops set r else []) = [] := by
        refine notBeyond_eq_nil fun r' hr' => ?_
        split at hr'
        · exact Nat.lt_succ_of_le (stops_suffix hr').length_le
        · nomatch hr'
      show notBeyond (c :: r) ((c :: r) :: if set.has c then stops set r else []) = [c :: r]
      rw [notBeyond_cons_of_le (Nat.le_refl _), hrest]
  | cons c u ih =>
    have hle : y.length ≤ (c :: (u ++ y)).length := (List.suffix_append (c :: u) y).length_le
    rw [List.cons_append, stops, stops, notBeyond_cons_of_le hle, List.map_cons]
    split
    · rw [ih]
      rfl
    · rfl

/-- What stops before a place in a second part had to stop before it in the first. -/
theorem notBeyond_flatMap (q : Pattern) (y : List Char) (rs : List (List Char)) :
    notBeyond y (rs.flatMap q.ends) =
      (notBeyond y rs).flatMap fun r => notBeyond y (q.ends r) := by
  induction rs with
  | nil => rfl
  | cons r rs ih =>
    rw [List.flatMap_cons, notBeyond_append, ih]
    by_cases hle : y.length ≤ r.length
    · rw [notBeyond_cons_of_le hle, List.flatMap_cons]
    · have hnil : notBeyond y (q.ends r) = [] := notBeyond_eq_nil fun r' hr' => by
        have := length_le_of_mem_ends hr'
        omega
      have hskip : notBeyond y (r :: rs) = notBeyond y rs :=
        List.filter_cons_of_neg fun h => hle (of_decide_eq_true h)
      rw [hnil, List.nil_append, hskip]

/-- The matches that stop before a place do not depend on what follows there. -/
theorem ends_append (hp : p.isLocal = true) (u y : List Char) :
    notBeyond y (p.ends (u ++ y)) = (p.ends u).map (· ++ y) := by
  induction p generalizing u with
  | empty =>
    rw [ends, ends, notBeyond_cons_of_le (List.suffix_append u y).length_le]
    rfl
  | one set =>
    cases u with
    | nil =>
      refine notBeyond_eq_nil fun r hr => ?_
      obtain ⟨c, -, rfl⟩ := mem_ends_one.1 hr
      exact Nat.lt_succ_self _
    | cons c u =>
      rw [List.cons_append, ends, ends]
      split
      · rw [notBeyond_cons_of_le (List.suffix_append u y).length_le]
        rfl
      · rfl
  | many set =>
    rw [ends, ends, List.map_reverse, ← stops_append]
    exact List.filter_reverse ..
  | seq p q ihp ihq =>
    obtain ⟨hp, hq⟩ := (Bool.and_eq_true _ _).mp hp
    rw [ends, ends, notBeyond_flatMap, ihp hp, List.flatMap_map, List.map_flatMap]
    exact List.flatMap_congr fun r _ => ihq hq r
  | alt p q ihp ihq =>
    obtain ⟨hp, hq⟩ := (Bool.and_eq_true _ _).mp hp
    rw [ends, ends, notBeyond_append, ihp hp, ihq hq, List.map_append]
  | opt p ih =>
    rw [ends, ends, notBeyond_append, ih hp, List.map_append,
      notBeyond_cons_of_le (List.suffix_append u y).length_le]
    rfl
  | star p => cases hp
  | lineEnd => cases hp
  | textEnd => cases hp

/-! ## Texts that stop a pattern -/

/-- What can be left of a pattern at a place where a match of it is not at its end. -/
def residuals : Pattern → List Pattern
  | .empty => []
  | .one set => [.one set]
  | .many set => [.many set]
  | .seq p q => (residuals p).map (.seq · q) ++ residuals q
  | .alt p q => residuals p ++ residuals q
  | .opt p => residuals p
  | .star p => [.star p]
  | .lineEnd => []
  | .textEnd => []

/-- A match that runs on beyond a place matches what follows there with what is left of the
pattern. -/
theorem exists_residual (hp : p.isLocal = true) (h : r ∈ p.ends (u ++ z))
    (hr : r.length < z.length) : ∃ k ∈ p.residuals, r ∈ k.ends z := by
  induction p generalizing u r with
  | empty =>
    rw [ends, List.mem_singleton] at h
    rw [h, List.length_append] at hr
    omega
  | one set =>
    cases u with
    | nil => exact ⟨_, List.mem_cons_self, h⟩
    | cons c u =>
      obtain ⟨d, -, heq⟩ := mem_ends_one.1 h
      rw [← (List.cons.inj heq).2, List.append_eq, List.length_append] at hr
      omega
  | many set =>
    refine ⟨_, List.mem_cons_self, ?_⟩
    rw [ends, List.mem_reverse] at h ⊢
    induction u with
    | nil => exact h
    | cons c u ih =>
      rw [List.cons_append, stops] at h
      rcases List.mem_cons.1 h with rfl | h
      · rw [List.length_cons, List.length_append] at hr
        omega
      · split at h
        · exact ih h
        · cases h
  | seq p q ihp ihq =>
    obtain ⟨hp, hq⟩ := (Bool.and_eq_true _ _).mp hp
    obtain ⟨m, hm, hmr⟩ := List.mem_flatMap.1 h
    rcases Nat.lt_or_ge m.length z.length with hlt | hge
    · obtain ⟨k, hk, hkm⟩ := ihp hp hm hlt
      exact ⟨.seq k q, List.mem_append_left _ (List.mem_map.2 ⟨k, hk, rfl⟩),
        List.mem_flatMap.2 ⟨m, hkm, hmr⟩⟩
    · obtain ⟨w, rfl⟩ :=
        List.suffix_of_suffix_length_le (List.suffix_append u z) (ends_suffix hm) hge
      obtain ⟨k, hk, hkr⟩ := ihq hq hmr hr
      exact ⟨k, List.mem_append_right _ hk, hkr⟩
  | alt p q ihp ihq =>
    obtain ⟨hp, hq⟩ := (Bool.and_eq_true _ _).mp hp
    rcases List.mem_append.1 h with h | h
    · obtain ⟨k, hk, hkr⟩ := ihp hp h hr
      exact ⟨k, List.mem_append_left _ hk, hkr⟩
    · obtain ⟨k, hk, hkr⟩ := ihq hq h hr
      exact ⟨k, List.mem_append_right _ hk, hkr⟩
  | opt p ih =>
    rcases List.mem_append.1 h with h | h
    · exact ih hp h hr
    · rw [List.mem_singleton.1 h, List.length_append] at hr
      omega
  | star p => cases hp
  | lineEnd => cases hp
  | textEnd => cases hp

/-- Whether a pattern matches nothing. -/
def nullable : Pattern → Bool
  | .empty => true
  | .one _ => false
  | .many _ => true
  | .seq p q => nullable p && nullable q
  | .alt p q => nullable p || nullable q
  | .opt _ => true
  | .star _ => true
  | .lineEnd => false
  | .textEnd => false

/-- What is left of a pattern after a character. -/
def after (c : Char) : Pattern → List Pattern
  | .empty => []
  | .one set => if set.has c then [.empty] else []
  | .many set => if set.has c then [.many set] else []
  | .seq p q => (after c p).map (.seq · q) ++ if nullable p then after c q else []
  | .alt p q => after c p ++ after c q
  | .opt p => after c p
  | .star _ => []
  | .lineEnd => []
  | .textEnd => []

theorem nullable_of_self_mem (hp : p.isLocal = true) (h : s ∈ p.ends s) : p.nullable = true := by
  induction p generalizing s with
  | empty => rfl
  | one set =>
    obtain ⟨c, -, heq⟩ := mem_ends_one.1 h
    exact absurd heq (List.cons_ne_self c s).symm
  | many set => rfl
  | seq p q ihp ihq =>
    obtain ⟨hp, hq⟩ := (Bool.and_eq_true _ _).mp hp
    obtain ⟨m, hm, hms⟩ := List.mem_flatMap.1 h
    have hms' : m = s := (ends_suffix hm).eq_of_length_le (length_le_of_mem_ends hms)
    rw [hms'] at hm hms
    exact (Bool.and_eq_true _ _).mpr ⟨ihp hp hm, ihq hq hms⟩
  | alt p q ihp ihq =>
    obtain ⟨hp, hq⟩ := (Bool.and_eq_true _ _).mp hp
    rcases List.mem_append.1 h with h | h
    · exact (Bool.or_eq_true _ _).mpr (.inl (ihp hp h))
    · exact (Bool.or_eq_true _ _).mpr (.inr (ihq hq h))
  | opt p _ => rfl
  | star p => cases hp
  | lineEnd => cases hp
  | textEnd => cases hp

/-- A match either takes up nothing, or goes on after the first character with what is left. -/
theorem mem_ends_cons (hp : p.isLocal = true) (h : r ∈ p.ends (c :: s)) :
    r = c :: s ∨ ∃ k ∈ after c p, r ∈ k.ends s := by
  induction p generalizing r with
  | empty => exact .inl (List.mem_singleton.1 h)
  | one set =>
    obtain ⟨d, hd, heq⟩ := mem_ends_one.1 h
    obtain ⟨rfl, rfl⟩ := List.cons.inj heq
    refine .inr ⟨.empty, ?_, List.mem_singleton.2 rfl⟩
    rw [after, if_pos hd]
    exact List.mem_cons_self
  | many set =>
    rw [ends, List.mem_reverse, stops] at h
    rcases List.mem_cons.1 h with h | h
    · exact .inl h
    · split at h
      · rename_i hc
        refine .inr ⟨.many set, ?_, List.mem_reverse.2 h⟩
        rw [after, if_pos hc]
        exact List.mem_cons_self
      · cases h
  | seq p q ihp ihq =>
    obtain ⟨hp, hq⟩ := (Bool.and_eq_true _ _).mp hp
    obtain ⟨m, hm, hmr⟩ := List.mem_flatMap.1 h
    rcases ihp hp hm with rfl | ⟨k, hk, hkm⟩
    · rcases ihq hq hmr with heq | ⟨k, hk, hkr⟩
      · exact .inl heq
      · refine .inr ⟨k, List.mem_append_right _ ?_, hkr⟩
        rw [if_pos (nullable_of_self_mem hp hm)]
        exact hk
    · exact .inr ⟨.seq k q, List.mem_append_left _ (List.mem_map.2 ⟨k, hk, rfl⟩),
        List.mem_flatMap.2 ⟨m, hkm, hmr⟩⟩
  | alt p q ihp ihq =>
    obtain ⟨hp, hq⟩ := (Bool.and_eq_true _ _).mp hp
    rcases List.mem_append.1 h with h | h
    · rcases ihp hp h with heq | ⟨k, hk, hkr⟩
      · exact .inl heq
      · exact .inr ⟨k, List.mem_append_left _ hk, hkr⟩
    · rcases ihq hq h with heq | ⟨k, hk, hkr⟩
      · exact .inl heq
      · exact .inr ⟨k, List.mem_append_right _ hk, hkr⟩
  | opt p ih =>
    rcases List.mem_append.1 h with h | h
    · exact ih hp h
    · exact .inl (List.mem_singleton.1 h)
  | star p => cases hp
  | lineEnd => cases hp
  | textEnd => cases hp

theorem isLocal_of_mem_after (hp : p.isLocal = true) (h : k ∈ after c p) : k.isLocal = true := by
  induction p generalizing k with
  | empty => nomatch h
  | one set =>
    rw [after] at h
    split at h
    · rw [List.mem_singleton.1 h]
      rfl
    · nomatch h
  | many set =>
    rw [after] at h
    split at h
    · rw [List.mem_singleton.1 h]
      rfl
    · nomatch h
  | seq p q ihp ihq =>
    obtain ⟨hp, hq⟩ := (Bool.and_eq_true _ _).mp hp
    rcases List.mem_append.1 h with h | h
    · obtain ⟨k, hk, rfl⟩ := List.mem_map.1 h
      exact (Bool.and_eq_true _ _).mpr ⟨ihp hp hk, hq⟩
    · split at h
      · exact ihq hq h
      · nomatch h
  | alt p q ihp ihq =>
    obtain ⟨hp, hq⟩ := (Bool.and_eq_true _ _).mp hp
    exact (List.mem_append.1 h).elim (ihp hp) (ihq hq)
  | opt p ih => exact ih hp h
  | star p => nomatch hp
  | lineEnd => nomatch hp
  | textEnd => nomatch hp

theorem isLocal_of_mem_residuals (hp : p.isLocal = true) (h : k ∈ residuals p) :
    k.isLocal = true := by
  induction p generalizing k with
  | empty => nomatch h
  | one set =>
    rw [List.mem_singleton.1 h]
    rfl
  | many set =>
    rw [List.mem_singleton.1 h]
    rfl
  | seq p q ihp ihq =>
    obtain ⟨hp, hq⟩ := (Bool.and_eq_true _ _).mp hp
    rcases List.mem_append.1 h with h | h
    · obtain ⟨k, hk, rfl⟩ := List.mem_map.1 h
      exact (Bool.and_eq_true _ _).mpr ⟨ihp hp hk, hq⟩
    · exact ihq hq h
  | alt p q ihp ihq =>
    obtain ⟨hp, hq⟩ := (Bool.and_eq_true _ _).mp hp
    exact (List.mem_append.1 h).elim (ihp hp) (ihq hq)
  | opt p ih => exact ih hp h
  | star p => nomatch hp
  | lineEnd => nomatch hp
  | textEnd => nomatch hp

/-- Whether reading a text leaves nothing of some patterns, and they match at no place on the way. -/
def dead : List Char → List Pattern → Bool
  | [], ks => ks.isEmpty
  | c :: w, ks =>
    let rest := ks.flatMap (after c)
    rest.all (fun k => !k.nullable) && dead w rest

theorem eq_of_dead {ks : List Pattern} {w : List Char} (hks : ∀ k ∈ ks, k.isLocal = true)
    (hdead : dead w ks = true) (hk : k ∈ ks) (h : r ∈ k.ends (w ++ z)) : r = w ++ z := by
  induction w generalizing ks k r with
  | nil =>
    rw [dead, List.isEmpty_iff] at hdead
    rw [hdead] at hk
    nomatch hk
  | cons c w ih =>
    rw [dead, Bool.and_eq_true] at hdead
    rcases mem_ends_cons (hks k hk) h with heq | ⟨k', hk', hr⟩
    · exact heq
    · have hmem : k' ∈ ks.flatMap (after c) := List.mem_flatMap.2 ⟨k, hk, hk'⟩
      have hlocal : ∀ k ∈ ks.flatMap (after c), k.isLocal = true := by
        intro m hm
        obtain ⟨n, hn, hm⟩ := List.mem_flatMap.1 hm
        exact isLocal_of_mem_after (hks n hn) hm
      have hwhole := ih hlocal hdead.2 hmem hr
      rw [hwhole] at hr
      -- what is left would match nothing here
      have hnull := nullable_of_self_mem (hlocal k' hmem) hr
      have hnot := List.all_eq_true.1 hdead.1 k' hmem
      rw [hnull] at hnot
      nomatch hnot

/-- Whether no match runs into a text, whatever stands before and after it. -/
def Stops (p : Pattern) (x : List Char) : Prop :=
  ∀ u z r, r ∈ p.ends (u ++ (x ++ z)) → (x ++ z).length ≤ r.length

theorem stops_of_dead {w : List Char} (hp : p.isLocal = true)
    (hdead : dead w p.residuals = true) (x : List Char) : p.Stops (w ++ x) := by
  intro u z r h
  refine Nat.le_of_not_lt fun hlt => ?_
  obtain ⟨k, hk, hkr⟩ := exists_residual hp h hlt
  rw [List.append_assoc] at hkr hlt
  have heq := eq_of_dead (fun k hk => isLocal_of_mem_residuals hp hk) hdead hk hkr
  rw [heq] at hlt
  exact Nat.lt_irrefl _ hlt

end Pattern

end AndroidFonts
