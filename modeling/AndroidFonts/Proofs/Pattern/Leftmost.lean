/-
# `AndroidFonts.Proofs.Pattern.Leftmost` — which matches are found

A match is the preferred one of its place, so `ends` says all about it.  The leftmost match of a text
is the match of a place in front of which there is no match (`find?_eq_some_iff`).  The listed matches
are found by walking through the text, from the end of one match to the next; where a walk goes depends
only on the matches that it has met, so two texts whose matches are the same up to some place have the
same walk up to there (`firstWhere_findFrom_congr`).
-/
import AndroidFonts.Proofs.Pattern.Locality

namespace AndroidFonts

open Text

namespace Pattern

variable {p q : Pattern} {s t t' u v x y z r r' a b w w' : List Char} {c : Char} {m : Match} {n : Nat}

/-! ## Matches at the front -/

/-- The match at the front of a text is the preferred one. -/
theorem matchAt?_eq_some_iff :
    p.matchAt? s = some ⟨b, w, r⟩ ↔ b = [] ∧ s = w ++ r ∧ (p.ends s).head? = some r := by
  constructor
  · intro h
    obtain ⟨htext, hb, -⟩ := text_of_matchAt? h
    obtain ⟨r', hr', heq⟩ := Option.map_eq_some_iff.1 h
    obtain rfl : r' = r := congrArg Match.after heq
    change b = [] at hb
    rw [hb] at htext
    exact ⟨hb, htext.symm, hr'⟩
  · rintro ⟨rfl, rfl, hr⟩
    unfold matchAt?
    rw [hr]
    simp

theorem matchAt?_eq_none_iff : p.matchAt? s = none ↔ p.ends s = [] := by
  unfold matchAt?
  rw [Option.map_eq_none_iff, List.head?_eq_none_iff]

theorem exists_matchAt?_iff : (∃ m, p.matchAt? s = some m) ↔ p.ends s ≠ [] := by
  rw [← Option.ne_none_iff_exists', not_iff_not]
  exact matchAt?_eq_none_iff

/-! ## The leftmost match -/

theorem find?_of_matchAt? (h : p.matchAt? s = some m) : p.find? s = some m := by
  unfold find?
  rw [h]

theorem find?_cons_of_none (h : p.matchAt? (c :: s) = none) :
    p.find? (c :: s) = (p.find? s).map (·.shift c) := by
  conv => lhs; unfold find?
  rw [h]

theorem exists_of_map_shift {o : Option Match} {r : List Char}
    (h : o.map (·.shift c) = some ⟨b, w, r⟩) : ∃ b', b = c :: b' ∧ o = some ⟨b', w, r⟩ := by
  obtain ⟨⟨b', w', r'⟩, ho, heq⟩ := Option.map_eq_some_iff.1 h
  obtain ⟨rfl, rfl, rfl⟩ := Match.mk.inj heq
  exact ⟨b', rfl, ho⟩

/-- The leftmost match is at the front, or the leftmost one of the rest. -/
theorem find?_cases (h : p.find? s = some m) : p.matchAt? s = some m ∨
    ∃ c r m', s = c :: r ∧ p.matchAt? s = none ∧ p.find? r = some m' ∧ m = m'.shift c := by
  cases hmatch : p.matchAt? s with
  | some m' =>
    rw [find?_of_matchAt? hmatch] at h
    exact .inl h
  | none =>
    cases s with
    | nil =>
      unfold find? at h
      rw [hmatch] at h
      cases h
    | cons c r =>
      rw [find?_cons_of_none hmatch] at h
      obtain ⟨m', hm', rfl⟩ := Option.map_eq_some_iff.1 h
      exact .inr ⟨c, r, m', rfl, rfl, hm', rfl⟩

/-- The leftmost match begins at a place in front of which there is no match. -/
theorem find?_eq_some_iff : p.find? s = some ⟨b, w, r⟩ ↔
    s = b ++ (w ++ r) ∧ (p.ends (w ++ r)).head? = some r ∧
      ∀ v u, b = v ++ u → u ≠ [] → p.ends (u ++ (w ++ r)) = [] := by
  induction b generalizing s with
  | nil =>
    constructor
    · intro h
      rcases find?_cases h with hmatch | ⟨c, t, m', -, -, -, heq⟩
      · obtain ⟨-, rfl, hr⟩ := matchAt?_eq_some_iff.1 hmatch
        refine ⟨rfl, hr, fun v u hvu hu => absurd ?_ hu⟩
        exact (List.append_eq_nil_iff.1 hvu.symm).2
      · nomatch congrArg Match.before heq
    · rintro ⟨rfl, hr, -⟩
      exact find?_of_matchAt? (matchAt?_eq_some_iff.2 ⟨rfl, rfl, hr⟩)
  | cons c b ih =>
    constructor
    · intro h
      rcases find?_cases h with hmatch | ⟨c', t, m', rfl, hnone, hrest, heq⟩
      · nomatch (matchAt?_eq_some_iff.1 hmatch).1
      · obtain ⟨b', w', r'⟩ := m'
        obtain ⟨hb, rfl, rfl⟩ := Match.mk.inj heq
        obtain ⟨rfl, rfl⟩ := List.cons.inj hb
        obtain ⟨rfl, hr, hbefore⟩ := ih.1 hrest
        refine ⟨rfl, hr, fun v u hvu hu => ?_⟩
        cases v with
        | nil =>
          obtain rfl : c :: b = u := hvu
          exact matchAt?_eq_none_iff.1 hnone
        | cons d v => exact hbefore v u (List.cons.inj hvu).2 hu
    · rintro ⟨rfl, hr, hbefore⟩
      have hnone : p.matchAt? (c :: (b ++ (w ++ r))) = none :=
        matchAt?_eq_none_iff.2 (hbefore [] (c :: b) rfl (List.cons_ne_nil _ _))
      have hrest : p.find? (b ++ (w ++ r)) = some ⟨b, w, r⟩ :=
        ih.2 ⟨rfl, hr, fun v u hvu => hbefore (c :: v) u (congrArg _ hvu)⟩
      show p.find? (c :: (b ++ (w ++ r))) = _
      rw [find?_cons_of_none hnone, hrest]
      rfl

/-! ## Listed matches -/

/-- Listed matches are not empty and begin after the characters that are covered. -/
theorem le_of_mem_findFrom (h : m ∈ p.findFrom n s) : m.matched ≠ [] ∧ n ≤ m.before.length := by
  induction s generalizing n m with
  | nil => nomatch h
  | cons c s ih =>
    rcases mem_findFrom_cons h with ⟨rfl, -, hne⟩ | ⟨k, m', hk, hm', rfl⟩
    · exact ⟨hne, Nat.zero_le _⟩
    · obtain ⟨hne, hle⟩ := ih hm'
      exact ⟨hne, Nat.le_trans hk (Nat.succ_le_succ hle)⟩

/-- The first of some matches that begins where it is asked to. -/
def firstWhere (begins : List Char → Bool) (ms : List Match) : Option Match :=
  ms.find? fun m => begins m.before

section
variable {begins : List Char → Bool} {ms : List Match}

theorem firstWhere_cons_of_pos (h : begins m.before = true) :
    firstWhere begins (m :: ms) = some m :=
  List.find?_cons_of_pos (p := fun m : Match => begins m.before) h

theorem firstWhere_cons_of_neg (h : ¬ begins m.before = true) :
    firstWhere begins (m :: ms) = firstWhere begins ms :=
  List.find?_cons_of_neg (p := fun m : Match => begins m.before) h

theorem firstWhere_map_shift (begins : List Char → Bool) (ms : List Match) (c : Char) :
    firstWhere begins (ms.map (·.shift c)) =
      (firstWhere (fun before => begins (c :: before)) ms).map (·.shift c) := List.find?_map ..

theorem begins_of_firstWhere (h : firstWhere begins ms = some m) : begins m.before = true :=
  List.find?_some (p := fun m : Match => begins m.before) h

theorem mem_of_firstWhere (h : firstWhere begins ms = some m) : m ∈ ms :=
  List.mem_of_find?_eq_some h

end

/-- A listed match is the match of its place. -/
theorem matchAt?_of_mem_findFrom (h : m ∈ p.findFrom n s) :
    p.matchAt? (m.matched ++ m.after) = some ⟨[], m.matched, m.after⟩ := by
  induction s generalizing n m with
  | nil => nomatch h
  | cons c s ih =>
    rcases mem_findFrom_cons h with ⟨-, hmatch, -⟩ | ⟨k, m', -, hm', rfl⟩
    · obtain ⟨b, w, r⟩ := m
      obtain ⟨rfl, hs, -⟩ := matchAt?_eq_some_iff.1 hmatch
      rw [← hs]
      exact hmatch
    · exact ih (m := m') hm'

/-- Whether the matches of a place that stop at some place behind it, and that there are none, are the
same for two texts that may follow. -/
def SameMatches (p : Pattern) (u t t' : List Char) : Prop :=
  (p.matchAt? (u ++ t) = none → p.matchAt? (u ++ t') = none) ∧
    ∀ m, p.matchAt? (u ++ t) = some m → m.matched.length ≤ u.length →
      ∃ m', p.matchAt? (u ++ t') = some m' ∧ m'.matched = m.matched

/-- Where nothing is taken up in front of the one text, nothing is in front of the other. -/
theorem SameMatches.pass (h : p.SameMatches u t t')
    (hpass : ∀ m, p.matchAt? (u ++ t) = some m → m.matched = []) :
    ∀ m, p.matchAt? (u ++ t') = some m → m.matched = [] := by
  intro m' hm'
  cases hmatch : p.matchAt? (u ++ t) with
  | none => nomatch (h.1 hmatch).symm.trans hm'
  | some m =>
    have hempty := hpass m hmatch
    obtain ⟨m₂, hm₂, hmatched⟩ := h.2 m hmatch (by rw [hempty]; exact Nat.zero_le _)
    obtain rfl := Option.some.inj (hm₂.symm.trans hm')
    exact hmatched.trans hempty

theorem le_of_firstWhere_shift {begins : List Char → Bool}
    (h : firstWhere begins ((p.findFrom n s).map (·.shift c)) = some ⟨c :: b, w, r⟩) :
    n ≤ b.length := by
  rw [firstWhere_map_shift] at h
  obtain ⟨b', hb, hrest⟩ := exists_of_map_shift h
  obtain rfl := (List.cons.inj hb).2
  exact (le_of_mem_findFrom (mem_of_firstWhere hrest)).2

/-- A walk that meets the same matches up to some place lists the match of that place again. -/
theorem firstWhere_findFrom_congr {begins : List Char → Bool}
    (hsame : ∀ v u, b = v ++ u → u ≠ [] → p.SameMatches u t t')
    (hmatch' : p.matchAt? t' = some ⟨[], w', r'⟩) (hw' : w' ≠ [])
    (h : firstWhere begins (p.findFrom n (b ++ t)) = some ⟨b, w, r⟩) :
    firstWhere begins (p.findFrom n (b ++ t')) = some ⟨b, w', r'⟩ := by
  induction b generalizing n begins with
  | nil =>
    obtain ⟨-, hn⟩ := le_of_mem_findFrom (mem_of_firstWhere h)
    obtain rfl : n = 0 := Nat.le_zero.1 hn
    have hbegins : begins [] = true := begins_of_firstWhere h
    obtain ⟨-, rfl, -⟩ := matchAt?_eq_some_iff.1 hmatch'
    obtain ⟨c, w', rfl⟩ := List.exists_cons_of_ne_nil hw'
    change p.matchAt? (c :: (w' ++ r')) = _ at hmatch'
    show firstWhere begins (p.findFrom 0 (c :: (w' ++ r'))) = _
    rw [findFrom_cons_of_match hmatch' hw', firstWhere_cons_of_pos hbegins]
  | cons c b ih =>
    have hstep : ∀ {k}, firstWhere begins ((p.findFrom k (b ++ t)).map (·.shift c)) =
        some ⟨c :: b, w, r⟩ →
          firstWhere begins ((p.findFrom k (b ++ t')).map (·.shift c)) =
            some ⟨c :: b, w', r'⟩ := by
      intro k hk
      rw [firstWhere_map_shift] at hk ⊢
      obtain ⟨b', hb, hrest⟩ := exists_of_map_shift hk
      obtain rfl := (List.cons.inj hb).2
      rw [@ih _ (fun before => begins (c :: before)) (fun v u hvu => hsame (c :: v) u (congrArg _ hvu))
        hrest]
      rfl
    have hfront : p.SameMatches (c :: b) t t' := hsame [] (c :: b) rfl (List.cons_ne_nil _ _)
    rw [List.cons_append] at h ⊢
    rcases findFrom_cons_cases p n c (b ++ t) with ⟨hpass, hwalk⟩ | ⟨m, rfl, hmatch, hne, hwalk⟩
    · rw [hwalk] at h
      have hpass' : n = 0 → ∀ m, p.matchAt? (c :: (b ++ t')) = some m → m.matched = [] :=
        fun hn => hfront.pass (hpass hn)
      rw [findFrom_cons_of_pass hpass']
      exact hstep h
    · rw [hwalk] at h
      have hnot : ¬ begins m.before = true := by
        intro hbegins
        rw [firstWhere_cons_of_pos hbegins] at h
        have hbefore := congrArg Match.before (Option.some.inj h)
        rw [(text_of_matchAt? hmatch).2.1] at hbefore
        cases hbefore
      rw [firstWhere_cons_of_neg hnot] at h
      -- the chosen match begins where this one has stopped, so this one is met as well
      have hle : m.matched.length ≤ (c :: b).length := by
        have hcovered := le_of_firstWhere_shift h
        rw [List.length_cons]
        omega
      obtain ⟨m', hm', hmatched⟩ := hfront.2 m hmatch hle
      have hnot' : ¬ begins m'.before = true := by
        rwa [(text_of_matchAt? hm').2.1, ← (text_of_matchAt? hmatch).2.1]
      rw [List.cons_append] at hm'
      rw [findFrom_cons_of_match hm' (hmatched ▸ hne), firstWhere_cons_of_neg hnot', hmatched]
      exact hstep h

end Pattern

end AndroidFonts
