/-
# `AndroidFonts.Proofs.Link.Isolation` — patches that changed nothing might as well be absent

Every patch of a file runs on the text that the patches before it left, so what one comes to depends
on all of them.  A patch that fails, that is skipped or that finds its work done hands on the text it
was given (`textAfter_of_idle`).  Hence deleting any set of such patches leaves every other patch the
text that it had: neither the edit nor an outcome of the others changes (`plan_without`), and the edit
is what the patches that were applied come to, each running on the text of the one before it
(`composes_effective`).
-/
import AndroidFonts.Proofs.Source.Registration

namespace AndroidFonts

/-- The members of a list at the positions that are not dropped. -/
def without {α : Type} (drop : Nat → Bool) : List α → List α
  | [] => []
  | a :: as => if drop 0 then without (fun i => drop (i + 1)) as
    else a :: without (fun i => drop (i + 1)) as

/-- An outcome of a step that changed nothing. -/
inductive StepOutcome.Idle : StepOutcome → Prop
  | alreadyApplied (file : Path) : Idle (.alreadyApplied file)
  | skipped (file : Path) (reason : String) : Idle (.skipped file reason)
  | failed (file : Path) (reason : String) : Idle (.failed file reason)

/-- Operations of which each changes the text that the one before it left. -/
inductive Operation.Composes (d : Dialect) : String → List Operation → String → Prop
  | nil (text : String) : Composes d text [] text
  | cons {text next last : String} {op : Operation} {ops : List Operation}
      (run : op.run text d = .ok (.applied next)) (rest : Composes d next ops last) :
      Composes d text (op :: ops) last

namespace Patching

variable {d : Dialect} {file : Path} {found : String} {p : SourcePatch} {patches : List SourcePatch}
  {drop : Nat → Bool} {x : Except PatchError TextPatch}

/-! ## One patch -/

/-- A patch was applied, with a text to hand on, or its outcome is idle and it hands on the text it
was given. -/
theorem applied_or_idle (file : Path) (found : String) (x : Except PatchError TextPatch) :
    (∃ next, x = .ok (.applied next) ∧ outcomeOf file x = .applied file ∧
        Operation.textAfter found x = next) ∨
      (outcomeOf file x).Idle ∧ Operation.textAfter found x = found := by
  cases x with
  | ok patch =>
    cases patch with
    | applied next => exact .inl ⟨next, rfl, rfl, rfl⟩
    | alreadyApplied => exact .inr ⟨.alreadyApplied file, rfl⟩
  | error e =>
    refine .inr ⟨?_, rfl⟩
    rw [outcomeOf]
    split
    · exact .skipped file _
    · exact .failed file _

theorem textAfter_of_idle (h : (outcomeOf file x).Idle) : Operation.textAfter found x = found := by
  rcases applied_or_idle file found x with ⟨next, rfl, -, -⟩ | ⟨-, htext⟩
  · nomatch h
  · exact htext

theorem planOutcomes_cons (file : Path) (found : String) (p : SourcePatch)
    (patches : List SourcePatch) (d : Dialect) :
    planOutcomes file found (p :: patches) d =
      (p.id, outcomeOf file (p.operation.run found d)) ::
        planOutcomes file (Operation.textAfter found (p.operation.run found d)) patches d := rfl

/-! ## All patches of a file -/

/-- Patches that are dropped from some were idle. -/
def Droppable (drop : Nat → Bool) (outcomes : List (String × StepOutcome)) : Prop :=
  ∀ i id outcome, outcomes[i]? = some (id, outcome) → drop i = true → outcome.Idle

theorem Droppable.tail {o : String × StepOutcome} {outcomes : List (String × StepOutcome)}
    (h : Droppable drop (o :: outcomes)) : Droppable (fun i => drop (i + 1)) outcomes :=
  fun i id outcome hi => h (i + 1) id outcome hi

/-- The other patches come to the same text, each with the outcome it had. -/
theorem final_without (h : Droppable drop (planOutcomes file found patches d)) :
    Operation.finalText d found ((without drop patches).map (·.operation)) =
        Operation.finalText d found (patches.map (·.operation)) ∧
      planOutcomes file found (without drop patches) d =
        without drop (planOutcomes file found patches d) := by
  -- the induction carries the text that the patches run on
  induction patches generalizing found drop with
  | nil => exact ⟨rfl, rfl⟩
  | cons p patches ih =>
    rw [planOutcomes_cons] at h ⊢
    obtain ⟨htext, houtcomes⟩ := ih h.tail
    rw [List.map_cons, Operation.finalText_cons, ← htext, without, without, ← houtcomes]
    cases hdrop : drop 0 with
    | true =>
      have hsame : Operation.textAfter found (p.operation.run found d) = found :=
        textAfter_of_idle (h 0 _ _ rfl hdrop)
      rw [hsame]
      exact ⟨rfl, rfl⟩
    | false => exact ⟨rfl, rfl⟩

/-- The operations of the patches that were applied. -/
def effective (file : Path) (found : String) (patches : List SourcePatch) (d : Dialect) :
    List Operation :=
  ((patches.zip (planOutcomes file found patches d)).filter
    fun (_, _, outcome) => outcome = .applied file).map fun (p, _) => p.operation

theorem effective_cons (file : Path) (found : String) (p : SourcePatch)
    (patches : List SourcePatch) (d : Dialect) :
    effective file found (p :: patches) d =
      let rest := effective file
        (Operation.textAfter found (p.operation.run found d)) patches d
      if outcomeOf file (p.operation.run found d) = .applied file then p.operation :: rest
      else rest := by
  rw [effective, planOutcomes_cons, List.zip_cons_cons, List.filter_cons]
  simp only [decide_eq_true_eq]
  split <;> rfl

/-- The text that some patches leave is that of the applied ones alone, one after the other. -/
theorem composes_effective (file : Path) (found : String) (patches : List SourcePatch)
    (d : Dialect) :
    Operation.Composes d found (effective file found patches d)
      (Operation.finalText d found (patches.map (·.operation))) := by
  induction patches generalizing found with
  | nil => exact .nil found
  | cons p patches ih =>
    rw [effective_cons, List.map_cons, Operation.finalText_cons]
    rcases applied_or_idle file found (p.operation.run found d) with
      ⟨next, hrun, happlied, htext⟩ | ⟨hidle, htext⟩
    · rw [if_pos happlied, htext]
      exact .cons hrun (ih next)
    · have hnot : outcomeOf file (p.operation.run found d) ≠ .applied file := by
        intro heq
        rw [heq] at hidle
        nomatch hidle
      rw [if_neg hnot, htext]
      exact ih found

/-- Dropping patches that were idle changes neither the edit of a file nor an outcome of the other
patches, and the edit is what the applied patches come to. -/
theorem plan_without (h : Droppable drop (planOutcomes file found patches d)) :
    planEdit file found (without drop patches) d = planEdit file found patches d ∧
      planOutcomes file found (without drop patches) d =
        without drop (planOutcomes file found patches d) ∧
      Operation.Composes d found (effective file found patches d)
        (planEdit file found patches d).after := by
  obtain ⟨htext, houtcomes⟩ := final_without h
  refine ⟨?_, houtcomes, composes_effective file found patches d⟩
  rw [planEdit, planEdit, htext]

def mixedPatches : List SourcePatch :=
  [⟨"import", ⟨"A.kt"⟩, .addImport "lib.Fonts"⟩,
    ⟨"again", ⟨"A.kt"⟩, .addImport "lib.Fonts"⟩,
    ⟨"call", ⟨"A.kt"⟩, .insertStatement "Other" "start" "go()" none⟩,
    ⟨"tidy", ⟨"A.kt"⟩, .removeLines "remove"⟩]

/-- Of four patches the second finds its work done and the third no class to write to; without them
the others come to the same text. -/
theorem plan_without_middle :
    Droppable (fun i => i = 1 || i = 2)
        (planOutcomes ⟨"A.kt"⟩ "package app\n// remove\n" mixedPatches .kotlin) ∧
      planEdit ⟨"A.kt"⟩ "package app\n// remove\n"
          (without (fun i => i = 1 || i = 2) mixedPatches) .kotlin =
        ⟨⟨"A.kt"⟩, some "package app\n// remove\n", "package app\n\nimport lib.Fonts\n"⟩ := by
  have houtcomes : planOutcomes ⟨"A.kt"⟩ "package app\n// remove\n" mixedPatches .kotlin =
      [("import", .applied ⟨"A.kt"⟩), ("again", .alreadyApplied ⟨"A.kt"⟩),
        ("call", .failed ⟨"A.kt"⟩ "class Other not found"), ("tidy", .applied ⟨"A.kt"⟩)] := by
    decide +kernel
  have hidle : Droppable (fun i => i = 1 || i = 2)
      (planOutcomes ⟨"A.kt"⟩ "package app\n// remove\n" mixedPatches .kotlin) := by
    intro i id outcome hi hdrop
    rw [houtcomes] at hi
    rcases (Bool.or_eq_true_iff.1 hdrop).imp of_decide_eq_true of_decide_eq_true with rfl | rfl
    · cases hi
      exact .alreadyApplied _
    · cases hi
      exact .failed _ _
  exact ⟨hidle, (plan_without hidle).1.trans (by decide +kernel)⟩

end Patching

end AndroidFonts
