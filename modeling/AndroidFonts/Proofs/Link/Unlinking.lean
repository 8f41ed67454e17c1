/-
# `AndroidFonts.Proofs.Link.Unlinking` — what is left of a text when families are unlinked

Taking registrations out is filtering.  A removal keeps the lines that do not hold the call of its
family (`toList_textAfter_removal`), and a text that was put together from kept lines falls apart into
those lines again, so that removals one after the other are one filter (`keepLines_keepLines`).  The
only text that has a line which was not kept is the empty one: where no line is left, the text is one
empty line, which holds no call.

`removals_keep` puts this together.  The text that is left depends on which families are named, not on
their order or on how often, and it holds no call of any of them.
-/
import AndroidFonts.Proofs.Source.Removal
import AndroidFonts.Proofs.Link.DryRun

namespace AndroidFonts

open Text

/-! ## Keeping lines -/

namespace Text

variable {keep other : List Char → Bool} {needle s : List Char}

/-- A text without the lines that are not kept. -/
def keepLines (keep : List Char → Bool) (s : List Char) : List Char :=
  ['\n'].intercalate ((splitOn '\n' s).filter keep)

theorem keepLines_of_forall (h : ∀ line ∈ splitOn '\n' s, keep line = true) :
    keepLines keep s = s := by
  unfold keepLines
  rw [List.filter_eq_self.2 h, intercalate_splitOn]

theorem keepLines_congr (h : ∀ line ∈ splitOn '\n' s, keep line = other line) :
    keepLines keep s = keepLines other s := by
  unfold keepLines
  rw [List.filter_congr h]

/-- The empty text is one empty line, which leaves nothing, kept or not. -/
theorem keepLines_nil (keep : List Char → Bool) : keepLines keep [] = [] := by
  show ['\n'].intercalate ([[]].filter keep) = []
  cases hempty : keep [] with
  | true => rw [List.filter_cons_of_pos hempty]; rfl
  | false => rw [List.filter_cons_of_neg (Bool.not_eq_true _ ▸ hempty)]; rfl

/-- The lines of what is left are the lines that were kept, or a single empty one. -/
theorem splitOn_keepLines (keep : List Char → Bool) (s : List Char) :
    splitOn '\n' (keepLines keep s) = (splitOn '\n' s).filter keep ∨
      (splitOn '\n' s).filter keep = [] ∧ splitOn '\n' (keepLines keep s) = [[]] := by
  by_cases hnone : (splitOn '\n' s).filter keep = []
  · refine .inr ⟨hnone, ?_⟩
    rw [keepLines, hnone]
    rfl
  · refine .inl (splitOn_intercalate hnone fun line hline => ?_)
    exact not_mem_of_mem_splitOn (List.mem_of_mem_filter hline)

/-- Keeping lines twice keeps those that are kept both times. -/
theorem keepLines_keepLines (keep other : List Char → Bool) (s : List Char) :
    keepLines other (keepLines keep s) = keepLines (fun line => keep line && other line) s := by
  have hboth : (splitOn '\n' s).filter (fun line => keep line && other line) =
      ((splitOn '\n' s).filter keep).filter other := by
    rw [List.filter_filter]
    exact List.filter_congr fun line _ => Bool.and_comm ..
  show ['\n'].intercalate ((splitOn '\n' (keepLines keep s)).filter other) =
    ['\n'].intercalate ((splitOn '\n' s).filter fun line => keep line && other line)
  rw [hboth]
  rcases splitOn_keepLines keep s with hlines | ⟨hnone, hlines⟩
  · rw [hlines]
  · -- of an empty line nothing is left, kept or not
    rw [hlines, hnone]
    cases hempty : other [] with
    | true => rw [List.filter_cons_of_pos hempty]; rfl
    | false => rw [List.filter_cons_of_neg (Bool.not_eq_true _ ▸ hempty)]

/-- A text that no kept line holds is not in what is left. -/
theorem not_mem_keepLines (hne : needle ≠ [])
    (h : ∀ line, keep line = true → occursIn needle line = false) :
    ∀ line ∈ splitOn '\n' (keepLines keep s), occursIn needle line = false := by
  intro line hline
  rcases splitOn_keepLines keep s with hlines | ⟨-, hlines⟩
  · rw [hlines] at hline
    exact h line (List.mem_filter.1 hline).2
  · rw [hlines] at hline
    obtain rfl := List.mem_singleton.1 hline
    exact Bool.eq_false_iff.2 fun hin => hne (List.infix_nil.1 (occursIn_iff.1 hin))

end Text

/-! ## Removals -/

namespace Registration

variable {family : String} {families : List String} {d : Dialect} {text : String}

/-- Whether a line holds the call of none of some families. -/
def unregistered (families : List String) (line : List Char) : Bool :=
  families.all fun family => !occursIn (needle family).toList line

theorem needle_ne_nil (family : String) : (needle family).toList ≠ [] := by
  rw [toList_needle]
  exact List.append_ne_nil_of_left_ne_nil (by decide) _

/-- A removal finds nothing to do exactly where no line holds the call. -/
theorem run_removal_eq_alreadyApplied_iff : (removal family).run text d = .ok .alreadyApplied ↔
    ∀ line ∈ splitOn '\n' text.toList, occursIn (needle family).toList line = false := by
  rw [removal, run_removeLines, removeLines_eq]
  constructor
  · intro h line hline
    split at h
    · rename_i hcount
      have hnone := List.eq_nil_of_length_eq_zero hcount
      exact Bool.eq_false_iff.2 (List.filter_eq_nil_iff.1 hnone line hline)
    · cases h
  · intro h
    rw [List.filter_eq_nil_iff.2 fun line hline => Bool.eq_false_iff.1 (h line hline)]
    rfl

/-- What a removal leaves are the lines that do not hold the call. -/
theorem toList_textAfter_removal (family text : String) (d : Dialect) :
    (Operation.textAfter text ((removal family).run text d)).toList =
      keepLines (unregistered [family]) text.toList := by
  have hkeep : ∀ line, unregistered [family] line = !occursIn (needle family).toList line :=
    fun line => Bool.and_true _
  by_cases hdone : (removal family).run text d = .ok .alreadyApplied
  · rw [hdone]
    refine (keepLines_of_forall fun line hline => ?_).symm
    rw [hkeep, run_removal_eq_alreadyApplied_iff.1 hdone line hline]
    rfl
  · rw [removal, run_removeLines, removeLines_eq] at hdone ⊢
    split
    · rename_i hcount
      exact absurd (if_pos hcount) hdone
    · exact String.toList_ofList.trans (keepLines_congr fun line _ => (hkeep line).symm)

/-- Removals one after the other keep the lines that hold none of the calls. -/
theorem toList_finalText_removals (families : List String) (d : Dialect) (text : String) :
    (Operation.finalText d text (families.map removal)).toList =
      keepLines (unregistered families) text.toList := by
  induction families generalizing text with
  | nil => exact (keepLines_of_forall fun _ _ => rfl).symm
  | cons family families ih =>
    rw [List.map_cons, Operation.finalText_cons, ih, toList_textAfter_removal, keepLines_keepLines]
    refine keepLines_congr fun line _ => ?_
    show (unregistered [family] line && unregistered families line) = unregistered (family :: families) line
    simp [unregistered]

theorem unregistered_congr {others : List String} (h : ∀ family, family ∈ others ↔ family ∈ families)
    (line : List Char) : unregistered others line = unregistered families line := by
  rw [Bool.eq_iff_iff]
  simp [unregistered, h]

theorem operation_unlinkPatches {k : Linker} {t : FileTree} {patches : List SourcePatch}
    (h : k.unlinkPatches t families = .ok patches) :
    patches.map (·.operation) = families.map removal := by
  unfold Linker.unlinkPatches at h
  split at h
  · rename_i hnone
    rw [hnone, ← Except.ok.inj h]
    rfl
  · cases hfile : k.applicationFile t with
    | error cause =>
      rw [hfile] at h
      nomatch h
    | ok file =>
      rw [hfile] at h
      rw [← Except.ok.inj h, List.map_map]
      rfl

/-- Unlinking drops the lines that hold the call of one of the families and keeps the others as they
are.  Order and repetition of the families do not matter, and unlinking again finds nothing to do. -/
theorem removals_keep (families : List String) (text : String) (d : Dialect) :
    (∀ (k : Linker) (t : FileTree) (patches : List SourcePatch),
      k.unlinkPatches t families = .ok patches →
        patches.map (·.operation) = families.map removal) ∧
    (Operation.finalText d text (families.map removal)).toList =
      ['\n'].intercalate ((splitOn '\n' text.toList).filter fun line =>
        families.all fun family => !occursIn (needle family).toList line) ∧
    (∀ others : List String, (∀ family, family ∈ others ↔ family ∈ families) →
      Operation.finalText d text (others.map removal) =
        Operation.finalText d text (families.map removal)) ∧
    Operation.outcomes d (Operation.finalText d text (families.map removal)) (families.map removal) =
      families.map fun _ => .ok .alreadyApplied := by
  have hkept := toList_finalText_removals families d text
  refine ⟨fun _ _ _ => operation_unlinkPatches, hkept, fun others hothers => ?_, ?_⟩
  · refine String.ext ?_
    rw [hkept, toList_finalText_removals]
    exact keepLines_congr fun line _ => unregistered_congr hothers line
  · have hdone : ∀ op ∈ families.map removal,
        op.run (Operation.finalText d text (families.map removal)) d = .ok .alreadyApplied := by
      intro op hop
      obtain ⟨family, hfamily, rfl⟩ := List.mem_map.1 hop
      rw [run_removal_eq_alreadyApplied_iff, hkept]
      refine not_mem_keepLines (needle_ne_nil family) fun line hline => ?_
      have hclear := List.all_eq_true.1 hline family hfamily
      exact (Bool.not_eq_true' _).mp hclear
    rw [(Operation.finalText_of_alreadyApplied hdone).2, List.map_map]
    rfl

/-- The calls of three families, one of them on a last line that has no line feed. -/
def threeCalls : String :=
  "a();\nm.addCustomFont(this, \"Lato\", x);\r\nm.addCustomFont(this, \"Lato Black\", y);\r\n" ++
    "m.addCustomFont(this, \"Inter\", z);"

theorem removals_keep_longer_name :
    (∃ patches, Linker.plainLinker.unlinkPatches Linker.plainProject ["Inter", "Lato"] = .ok patches ∧
      patches.map (·.operation) = [removal "Inter", removal "Lato"]) ∧
    Operation.finalText .java threeCalls (["Inter", "Lato"].map removal) =
      "a();\nm.addCustomFont(this, \"Lato Black\", y);\r" ∧
    Operation.finalText .java threeCalls (["Lato", "Inter", "Lato"].map removal) =
      "a();\nm.addCustomFont(this, \"Lato Black\", y);\r" := by
  obtain ⟨hpatches, hkept, hothers, -⟩ := removals_keep ["Inter", "Lato"] threeCalls .java
  have htext : Operation.finalText .java threeCalls (["Inter", "Lato"].map removal) =
      "a();\nm.addCustomFont(this, \"Lato Black\", y);\r" := by
    refine String.ext (hkept.trans ?_)
    decide +kernel
  refine ⟨?_, htext, (hothers ["Lato", "Inter", "Lato"] fun family => ?_).trans htext⟩
  · obtain ⟨patches, hrun, -⟩ := exists_of_any (p := fun _ => true)
      (x := Linker.plainLinker.unlinkPatches Linker.plainProject ["Inter", "Lato"]) (by decide +kernel)
    exact ⟨patches, hrun, hpatches _ _ _ hrun⟩
  · simp only [List.mem_cons, List.not_mem_nil, or_false]
    constructor
    · rintro (h | h | h)
      · exact .inr h
      · exact .inl h
      · exact .inr h
    · rintro (h | h)
      · exact .inr (.inl h)
      · exact .inl h

end Registration

end AndroidFonts
