/-
# `AndroidFonts.Proofs.Link.Sparing` — unlinking a family spares the others

A registration is found again by the front of its call, up to the quote behind the name of the
family.  Both the front and the call have two quotes, so that the one stands in the other only quote on
quote, and then the names between them are the same (`needle_infix_line_iff`).  What the names hold
otherwise does not matter: the one may begin with the other, or hold the text of a call itself.

`finalText_callLines` is what this says of a run: of a block of calls, those are left whose families
are not named.
-/
import AndroidFonts.Proofs.Link.Block
import AndroidFonts.Proofs.Link.Unlinking

namespace AndroidFonts

open Text

namespace Registration

variable {family other : String} {lead trail : List Char}

/-- A needle in the form of a quoted text. -/
theorem toList_needle_eq (family : String) : (needle family).toList =
    "addCustomFont(this, ".toList ++ '"' :: (family.toList ++ ['"']) := by
  have hfront : "addCustomFont(this, \"".toList = "addCustomFont(this, ".toList ++ ['"'] := by
    decide
  rw [toList_needle, hfront, List.append_assoc, List.singleton_append]

theorem quote_not_mem_callEnd_normalizeName (name : String) (d : Dialect) :
    '"' ∉ callEnd (normalizeName name) d :=
  quote_not_mem_callEnd ⟨name, none, []⟩ d

/-- On a line that has no other quotes, a call holds the needle of its own family only. -/
theorem needle_infix_line_iff (hfamily : '"' ∉ family.toList) (hother : '"' ∉ other.toList)
    (hlead : '"' ∉ lead) (htrail : '"' ∉ trail) (name : String) (d : Dialect) :
    (needle family).toList <:+: lead ++ (call other (normalizeName name) d).toList ++ trail ↔
      family = other := by
  constructor
  · rintro ⟨u, v, h⟩
    have hline : lead ++ (call other (normalizeName name) d).toList ++ trail =
        (lead ++ callee) ++ '"' :: (other.toList ++ '"' :: (callEnd (normalizeName name) d ++ trail)) := by
      rw [toList_call_eq]
      simp
    have hfront : '"' ∉ lead ++ callee := fun hmem =>
      (List.mem_append.1 hmem).elim hlead (by decide)
    have hend : '"' ∉ callEnd (normalizeName name) d ++ trail := fun hmem =>
      (List.mem_append.1 hmem).elim (quote_not_mem_callEnd_normalizeName name d) htrail
    rw [hline, toList_needle_eq] at h
    exact String.ext (quoted_inj (by decide) hfamily hfront hother hend h).2.1
  · rintro rfl
    exact (needle_infix_call family _ d).trans ⟨lead, trail, rfl⟩

/-- The needle by which the registration of a family is taken out stands in the call of a family if
and only if it is the same family. -/
theorem unlinking_spares_others (hfamily : '"' ∉ family.toList) (hother : '"' ∉ other.toList)
    (name : String) (d : Dialect) :
    (∀ (k : Linker) (t : FileTree) (families : List String) (patches : List SourcePatch),
      k.unlinkPatches t families = .ok patches →
        patches.map (·.operation) = families.map fun family => .removeLines (needle family)) ∧
    (occursIn (needle family).toList (call other (normalizeName name) d).toList = true ↔
      family = other) := by
  refine ⟨fun _ _ _ _ => operation_unlinkPatches, ?_⟩
  have hnone : '"' ∉ ([] : List Char) := List.not_mem_nil
  have hiff := needle_infix_line_iff hfamily hother hnone hnone name d
  rwa [List.nil_append, List.append_nil, ← occursIn_iff] at hiff

/-- A name may begin with another name, or hold the text of another call up to its quote. -/
theorem unlinking_spares_longer_names :
    (∃ patches, Linker.plainLinker.unlinkPatches Linker.plainProject ["Roboto"] = .ok patches ∧
      patches.map (·.operation) = [.removeLines (needle "Roboto")]) ∧
    occursIn (needle "Roboto").toList
      (call "Roboto Mono" (normalizeName "Roboto Mono") .java).toList = false ∧
    occursIn (needle "Roboto").toList
      (call "addCustomFont(this, Roboto" (normalizeName "R.font.") .kotlin).toList = false ∧
    occursIn (needle "Roboto").toList
      (call "Roboto" (normalizeName "Roboto Mono") .kotlin).toList = true := by
  have hquote : '"' ∉ "Roboto".toList := by decide
  have hspares : ∀ other : String, '"' ∉ other.toList → "Roboto" ≠ other →
      ∀ (name : String) (d : Dialect),
        occursIn (needle "Roboto").toList (call other (normalizeName name) d).toList = false :=
    fun other hother hne name d => Bool.eq_false_iff.2 fun h =>
      hne ((unlinking_spares_others hquote hother name d).2.1 h)
  obtain ⟨hpatches, hsame⟩ := unlinking_spares_others hquote hquote "Roboto Mono" .kotlin
  refine ⟨?_, hspares _ (by decide) (by decide) _ _, hspares _ (by decide) (by decide) _ _,
    hsame.2 rfl⟩
  obtain ⟨patches, hrun, -⟩ := exists_of_any (p := fun _ => true)
    (x := Linker.plainLinker.unlinkPatches Linker.plainProject ["Roboto"]) (by decide +kernel)
  exact ⟨patches, hrun, hpatches _ _ _ _ hrun⟩

/-! ## Blocks of calls -/

variable {families : List String} {gs : List FontFamily}

/-- The name of a family can stand in quotes on a line.  It may hold braces. -/
structure Quotable (g : FontFamily) : Prop where
  no_quote : '"' ∉ g.family.toList
  no_feed : '\n' ∉ g.family.toList

/-- The lines on which families are registered. -/
def callLines (d : Dialect) (gs : List FontFamily) : List (List Char) :=
  gs.map fun g => Body.indent ++ (call g.family g.resourceId d).toList

theorem unregistered_callLine {g : FontFamily} (hg : Quotable g)
    (hfamilies : ∀ family ∈ families, '"' ∉ family.toList) (d : Dialect) :
    unregistered families (Body.indent ++ (call g.family g.resourceId d).toList) =
      decide (g.family ∉ families) := by
  have hfree : ∀ family ∈ families,
      (!occursIn (needle family).toList (Body.indent ++ (call g.family g.resourceId d).toList)) =
        decide (family ≠ g.family) := by
    intro family hfamily
    have hindent : '"' ∉ Body.indent := by decide
    have hnone : '"' ∉ ([] : List Char) := List.not_mem_nil
    have hiff := needle_infix_line_iff (hfamilies family hfamily) hg.no_quote hindent hnone
      (g.id.getD g.family) d
    rw [List.append_nil, ← occursIn_iff] at hiff
    rw [Bool.eq_iff_iff, Bool.not_eq_true', ← Bool.not_eq_true, decide_eq_true_eq]
    exact not_congr hiff
  rw [Bool.eq_iff_iff, unregistered, List.all_eq_true, decide_eq_true_eq]
  constructor
  · intro hall hmem
    have hne := hall _ hmem
    rw [hfree _ hmem, decide_eq_true_eq] at hne
    exact hne rfl
  · intro hmem family hfamily
    rw [hfree _ hfamily, decide_eq_true_eq]
    rintro rfl
    exact hmem hfamily

/-- Unlinking leaves of a block of calls those of the families that are not named, in their order. -/
theorem finalText_callLines (hgs : ∀ g ∈ gs, Quotable g)
    (hfamilies : ∀ family ∈ families, '"' ∉ family.toList) (d : Dialect) :
    Operation.finalText d (String.ofList (['\n'].intercalate (callLines d gs)))
        (families.map removal) =
      String.ofList (['\n'].intercalate (callLines d (gs.filter (·.family ∉ families)))) := by
  refine String.ext ?_
  rw [toList_finalText_removals, String.toList_ofList, String.toList_ofList]
  by_cases hnone : gs = []
  · subst hnone
    exact keepLines_nil _
  · have hfeed : ∀ line ∈ callLines d gs, '\n' ∉ line := by
      intro line hline
      obtain ⟨g, hg, rfl⟩ := List.mem_map.1 hline
      exact fun hmem => (List.mem_append.1 hmem).elim (by decide)
        (feed_not_mem_call (hgs g hg).no_feed d)
    have hlines : callLines d gs ≠ [] := mt List.map_eq_nil_iff.1 hnone
    rw [keepLines, splitOn_intercalate hlines hfeed, callLines, List.filter_map]
    refine congrArg (fun kept => ['\n'].intercalate (callLines d kept)) ?_
    exact List.filter_congr fun g hg => unregistered_callLine (hgs g hg) hfamilies d

end Registration

end AndroidFonts
