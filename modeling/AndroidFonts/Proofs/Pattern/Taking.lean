/-
# `AndroidFonts.Proofs.Pattern.Taking` — what a pattern takes up

`Takes p w r` says what a pattern means, without the order in which its choices are tried: it may take
up `w` where `r` follows.  The places that `ends` lists are exactly those behind a text that can be
taken up (`mem_ends_iff`), so whether a pattern matches somewhere is a question about `Takes` alone.
Which match is preferred is another question, and one about the list.

Most patterns are chains of parts, and many parts are spelled out.  A chain takes up one text for each
part, one behind the other (`takes_chain_append`), and a spelled part takes up itself
(`takes_spelled`).
-/
import AndroidFonts.Proofs.Pattern.Locality

namespace AndroidFonts

open Text

namespace Pattern

variable {p q : Pattern} {ps qs : List Pattern} {set : CharSet} {s t w r a b : List Char} {c : Char}

/-- A pattern may take up a text where another one follows. -/
inductive Takes : Pattern → List Char → List Char → Prop
  | empty {r : List Char} : Takes .empty [] r
  | one {set : CharSet} {c : Char} {r : List Char} : set.has c = true → Takes (.one set) [c] r
  | many {set : CharSet} {w r : List Char} : (∀ c ∈ w, set.has c = true) → Takes (.many set) w r
  | seq {p q : Pattern} {a b r : List Char} :
      Takes p a (b ++ r) → Takes q b r → Takes (.seq p q) (a ++ b) r
  | left {p q : Pattern} {w r : List Char} : Takes p w r → Takes (.alt p q) w r
  | right {p q : Pattern} {w r : List Char} : Takes q w r → Takes (.alt p q) w r
  | once {p : Pattern} {w r : List Char} : Takes p w r → Takes (.opt p) w r
  | never {p : Pattern} {r : List Char} : Takes (.opt p) [] r
  | stop {p : Pattern} {r : List Char} : Takes (.star p) [] r
  | again {p : Pattern} {a b r : List Char} :
      a ≠ [] → Takes p a (b ++ r) → Takes (.star p) b r → Takes (.star p) (a ++ b) r
  | feed {r : List Char} : Takes .lineEnd [] ('\n' :: r)
  | last : Takes .lineEnd [] []
  | textEnd : Takes .textEnd [] []

/-! ## The listed places are those behind what can be taken up -/

theorem mem_stops_iff : r ∈ stops set s ↔ ∃ w, s = w ++ r ∧ ∀ c ∈ w, set.has c = true := by
  induction s with
  | nil =>
    constructor
    · intro h
      exact ⟨[], (List.mem_singleton.1 h).symm, nofun⟩
    · rintro ⟨w, hw, -⟩
      obtain ⟨-, rfl⟩ := List.append_eq_nil_iff.1 hw.symm
      exact List.mem_singleton.2 rfl
  | cons c s ih =>
    constructor
    · intro h
      rcases List.mem_cons.1 h with rfl | h
      · exact ⟨[], rfl, nofun⟩
      · split at h
        · rename_i hc
          obtain ⟨w, rfl, hw⟩ := ih.1 h
          exact ⟨c :: w, rfl, List.forall_mem_cons.2 ⟨hc, hw⟩⟩
        · nomatch h
    · rintro ⟨w, hs, hw⟩
      cases w with
      | nil => exact List.mem_cons.2 (.inl hs.symm)
      | cons d w =>
        obtain ⟨rfl, hrest⟩ := List.cons.inj hs
        obtain ⟨hc, hw⟩ := List.forall_mem_cons.1 hw
        refine List.mem_cons_of_mem _ ?_
        rw [if_pos hc]
        exact ih.2 ⟨w, hrest, hw⟩

theorem mem_repeated_succ {step : List Char → List (List Char)} {n : Nat} :
    r ∈ repeated step (n + 1) s ↔
      (∃ t ∈ step s, t.length < s.length ∧ r ∈ repeated step n t) ∨ r = s := by
  simp only [repeated, List.mem_append, List.mem_flatMap, List.mem_filter, List.mem_singleton,
    decide_eq_true_eq, and_assoc]

/-- More rounds reach no fewer places. -/
theorem mem_repeated_mono {step : List Char → List (List Char)} {m n : Nat} (hmn : m ≤ n)
    (h : r ∈ repeated step m s) : r ∈ repeated step n s := by
  induction m generalizing n s with
  | zero =>
    obtain rfl := List.mem_singleton.1 h
    cases n with
    | zero => exact List.mem_singleton.2 rfl
    | succ n => exact mem_repeated_succ.2 (.inr rfl)
  | succ m ih =>
    obtain ⟨n, rfl⟩ : ∃ k, n = k + 1 := ⟨n - 1, by omega⟩
    rcases mem_repeated_succ.1 h with ⟨t, ht, hlt, hr⟩ | rfl
    · exact mem_repeated_succ.2 (.inl ⟨t, ht, hlt, ih (by omega) hr⟩)
    · exact mem_repeated_succ.2 (.inr rfl)

theorem exists_takes_repeated
    (hp : ∀ {s r}, r ∈ p.ends s → ∃ w, s = w ++ r ∧ Takes p w r) {n : Nat}
    (h : r ∈ repeated p.ends n s) : ∃ w, s = w ++ r ∧ Takes (.star p) w r := by
  induction n generalizing s with
  | zero => exact ⟨[], (List.mem_singleton.1 h).symm, .stop⟩
  | succ n ih =>
    rcases mem_repeated_succ.1 h with ⟨t, ht, hlt, hr⟩ | rfl
    · obtain ⟨a, rfl, ha⟩ := hp ht
      obtain ⟨b, rfl, hb⟩ := ih hr
      refine ⟨a ++ b, (List.append_assoc a b r).symm, .again ?_ ha hb⟩
      rintro rfl
      exact Nat.lt_irrefl _ hlt
    · exact ⟨[], rfl, .stop⟩

theorem exists_takes_of_mem_ends (h : r ∈ p.ends s) : ∃ w, s = w ++ r ∧ Takes p w r := by
  induction p generalizing s r with
  | empty => exact ⟨[], (List.mem_singleton.1 h).symm, .empty⟩
  | one set =>
    obtain ⟨c, hc, rfl⟩ := mem_ends_one.1 h
    exact ⟨[c], rfl, .one hc⟩
  | many set =>
    obtain ⟨w, hs, hw⟩ := mem_stops_iff.1 (List.mem_reverse.1 h)
    exact ⟨w, hs, .many hw⟩
  | seq p q ihp ihq =>
    obtain ⟨t, ht, hr⟩ := List.mem_flatMap.1 h
    obtain ⟨a, rfl, ha⟩ := ihp ht
    obtain ⟨b, rfl, hb⟩ := ihq hr
    exact ⟨a ++ b, (List.append_assoc a b r).symm, .seq ha hb⟩
  | alt p q ihp ihq =>
    rcases List.mem_append.1 h with h | h
    · obtain ⟨w, hs, hw⟩ := ihp h
      exact ⟨w, hs, .left hw⟩
    · obtain ⟨w, hs, hw⟩ := ihq h
      exact ⟨w, hs, .right hw⟩
  | opt p ih =>
    rcases List.mem_append.1 h with h | h
    · obtain ⟨w, hs, hw⟩ := ih h
      exact ⟨w, hs, .once hw⟩
    · exact ⟨[], (List.mem_singleton.1 h).symm, .never⟩
  | star p ih => exact exists_takes_repeated ih h
  | lineEnd =>
    obtain ⟨rfl, rfl | ⟨t, rfl⟩⟩ := mem_ends_lineEnd.1 h
    · exact ⟨[], rfl, .last⟩
    · exact ⟨[], rfl, .feed⟩
  | textEnd =>
    obtain ⟨rfl, rfl⟩ := mem_ends_textEnd.1 h
    exact ⟨[], rfl, .textEnd⟩

theorem mem_ends_of_takes (h : Takes p w r) : r ∈ p.ends (w ++ r) := by
  induction h with
  | empty => exact List.mem_singleton.2 rfl
  | one hc => exact mem_ends_one.2 ⟨_, hc, rfl⟩
  | many hw => exact List.mem_reverse.2 (mem_stops_iff.2 ⟨_, rfl, hw⟩)
  | seq _ _ ihp ihq =>
    rw [List.append_assoc]
    exact List.mem_flatMap.2 ⟨_, ihp, ihq⟩
  | left _ ih => exact List.mem_append_left _ ih
  | right _ ih => exact List.mem_append_right _ ih
  | once _ ih => exact List.mem_append_left _ ih
  | never => exact List.mem_append_right _ (List.mem_singleton.2 rfl)
  | @stop p r => exact mem_repeated_mono (Nat.zero_le r.length) (List.mem_singleton.2 rfl)
  | @again p a b r ha _ _ ihp ihq =>
    have hlt : (b ++ r).length < (a ++ (b ++ r)).length := by
      have := List.length_pos_of_ne_nil ha
      simp only [List.length_append]
      omega
    have hround : r ∈ repeated p.ends ((b ++ r).length + 1) (a ++ (b ++ r)) :=
      mem_repeated_succ.2 (.inl ⟨b ++ r, ihp, hlt, ihq⟩)
    rw [List.append_assoc]
    exact mem_repeated_mono hlt hround
  | feed => exact mem_ends_lineEnd.2 ⟨rfl, .inr ⟨_, rfl⟩⟩
  | last => exact mem_ends_lineEnd.2 ⟨rfl, .inl rfl⟩
  | textEnd => exact mem_ends_textEnd.2 ⟨rfl, rfl⟩

/-- The listed places are those behind what can be taken up. -/
theorem mem_ends_iff : r ∈ p.ends s ↔ ∃ w, s = w ++ r ∧ Takes p w r := by
  constructor
  · exact exists_takes_of_mem_ends
  · rintro ⟨w, rfl, hw⟩
    exact mem_ends_of_takes hw

/-- What is preferred can be taken up. -/
theorem takes_of_head? (h : (p.ends (w ++ r)).head? = some r) : Takes p w r := by
  obtain ⟨v, hv, htakes⟩ := mem_ends_iff.1 (List.mem_of_mem_head? h)
  rwa [List.append_cancel_right hv]

/-- Where something can be taken up, something is preferred. -/
theorem exists_head?_of_ne_nil (h : p.ends s ≠ []) :
    ∃ w r, s = w ++ r ∧ (p.ends (w ++ r)).head? = some r ∧ Takes p w r := by
  obtain ⟨r, rs, hr⟩ := List.exists_cons_of_ne_nil h
  obtain ⟨w, rfl, hw⟩ := exists_takes_of_mem_ends (hr ▸ List.mem_cons_self)
  exact ⟨w, r, rfl, by rw [hr]; rfl, hw⟩

/-! ## Parts of patterns -/

theorem takes_many : Takes (.many set) w r ↔ ∀ c ∈ w, set.has c = true := by
  constructor
  · intro h
    cases h with
    | many hw => exact hw
  · exact .many

theorem takes_many1 : Takes (many1 set) w r ↔ w ≠ [] ∧ ∀ c ∈ w, set.has c = true := by
  constructor
  · intro h
    cases h with
    | seq ha hb =>
      cases ha with
      | one hc => exact ⟨List.cons_ne_nil _ _, List.forall_mem_cons.2 ⟨hc, takes_many.1 hb⟩⟩
  · rintro ⟨hne, hw⟩
    obtain ⟨c, w, rfl⟩ := List.exists_cons_of_ne_nil hne
    obtain ⟨hc, hw⟩ := List.forall_mem_cons.1 hw
    exact .seq (a := [c]) (.one hc) (.many hw)

theorem takes_opt : Takes (.opt p) w r ↔ Takes p w r ∨ w = [] := by
  constructor
  · intro h
    cases h with
    | once h => exact .inl h
    | never => exact .inr rfl
  · rintro (h | rfl)
    · exact .once h
    · exact .never

theorem takes_alt : Takes (.alt p q) w r ↔ Takes p w r ∨ Takes q w r := by
  constructor
  · intro h
    cases h with
    | left h => exact .inl h
    | right h => exact .inr h
  · rintro (h | h)
    · exact .left h
    · exact .right h

theorem takes_lineEnd : Takes .lineEnd w r ↔ w = [] ∧ (r = [] ∨ ∃ t, r = '\n' :: t) := by
  constructor
  · intro h
    cases h with
    | feed => exact ⟨rfl, .inr ⟨_, rfl⟩⟩
    | last => exact ⟨rfl, .inl rfl⟩
  · rintro ⟨rfl, rfl | ⟨t, rfl⟩⟩
    · exact .last
    · exact .feed

/-! ## Chains -/

/-- Patterns one behind the other. -/
def chain (ps : List Pattern) : Pattern := ps.foldr .seq .empty

/-- The characters of a text, as parts of a chain. -/
def spelled (s : List Char) : List Pattern := s.map fun c => .one (.single c)

theorem takes_chain_nil : Takes (chain []) w r ↔ w = [] := by
  constructor
  · intro h
    cases h with
    | empty => rfl
  · rintro rfl
    exact .empty

theorem takes_chain_cons : Takes (chain (p :: ps)) w r ↔
    ∃ a b, w = a ++ b ∧ Takes p a (b ++ r) ∧ Takes (chain ps) b r := by
  constructor
  · intro h
    cases h with
    | seq ha hb => exact ⟨_, _, rfl, ha, hb⟩
  · rintro ⟨a, b, rfl, ha, hb⟩
    exact .seq ha hb

/-- A chain takes up what its parts take up, one behind the other. -/
theorem takes_chain_append : Takes (chain (ps ++ qs)) w r ↔
    ∃ a b, w = a ++ b ∧ Takes (chain ps) a (b ++ r) ∧ Takes (chain qs) b r := by
  induction ps generalizing w with
  | nil =>
    constructor
    · intro h
      exact ⟨[], w, rfl, takes_chain_nil.2 rfl, h⟩
    · rintro ⟨a, b, rfl, ha, hb⟩
      obtain rfl := takes_chain_nil.1 ha
      exact hb
  | cons p ps ih =>
    constructor
    · intro h
      obtain ⟨a, m, rfl, ha, hm⟩ := takes_chain_cons.1 h
      obtain ⟨b, c, rfl, hb, hc⟩ := ih.1 hm
      rw [List.append_assoc] at ha
      exact ⟨a ++ b, c, (List.append_assoc a b c).symm, takes_chain_cons.2 ⟨a, b, rfl, ha, hb⟩, hc⟩
    · rintro ⟨m, c, rfl, hm, hc⟩
      obtain ⟨a, b, rfl, ha, hb⟩ := takes_chain_cons.1 hm
      rw [← List.append_assoc] at ha
      exact takes_chain_cons.2 ⟨a, b ++ c, List.append_assoc a b c, ha, ih.2 ⟨b, c, rfl, hb, hc⟩⟩

theorem takes_single {d : Char} : Takes (.one (.single d)) w r ↔ w = [d] := by
  constructor
  · intro h
    cases h with
    | one hc => rw [beq_iff_eq.1 hc]
  · rintro rfl
    exact .one (beq_self_eq_true d)

/-- What is spelled out takes up itself. -/
theorem takes_spelled : Takes (chain (spelled s)) w r ↔ w = s := by
  induction s generalizing w with
  | nil => exact takes_chain_nil
  | cons c s ih =>
    constructor
    · intro h
      obtain ⟨a, b, rfl, ha, hb⟩ := takes_chain_cons.1 h
      rw [takes_single.1 ha, ih.1 hb]
      rfl
    · rintro rfl
      exact takes_chain_cons.2 ⟨[c], s, rfl, takes_single.2 rfl, ih.2 rfl⟩

theorem takes_spelled_append : Takes (chain (spelled s ++ ps)) w r ↔
    ∃ b, w = s ++ b ∧ Takes (chain ps) b r := by
  constructor
  · intro h
    obtain ⟨a, b, rfl, ha, hb⟩ := takes_chain_append.1 h
    obtain rfl := takes_spelled.1 ha
    exact ⟨b, rfl, hb⟩
  · rintro ⟨b, rfl, hb⟩
    exact takes_chain_append.2 ⟨s, b, rfl, takes_spelled.2 rfl, hb⟩

theorem isLocal_chain : (chain ps).isLocal = ps.all isLocal := by
  induction ps with
  | nil => rfl
  | cons p ps ih =>
    show (p.isLocal && (chain ps).isLocal) = _
    rw [ih, List.all_cons]

theorem isLocal_spelled (s : List Char) : (spelled s).all isLocal = true := by
  refine List.all_eq_true.2 fun p hp => ?_
  obtain ⟨c, -, rfl⟩ := List.mem_map.1 hp
  rfl

end Pattern

end AndroidFonts
