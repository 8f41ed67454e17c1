/-
# `AndroidFonts.Proofs.Plan.Validity` — which plans are valid, and what is said about the others

`LinkPlan.WellFormed` says what a valid plan is, without a word about issues.  `LinkPlan.conditions`
lists the same demands one by one in the order of the plan, each with the issue that it stands for, and
`Reports` says which issues a list of conditions gives rise to: one for each condition that is not
met, and no others, in their order.  The issues of a plan are these (`LinkPlan.reports_issues`).

The demands on a family other than its name are made only if it has a name.

What is said about a family or a patch depends on nothing else in the plan
(`LinkPlan.partIssues_of_fonts`, `LinkPlan.partIssues_of_patches`); only whether the plan is empty is
a matter of the whole.
-/
import AndroidFonts.Plan.Toml

namespace AndroidFonts

/-! ## What a valid plan is -/

/-- Whether a text has a character that is no white space. -/
def Filled (s : String) : Prop := ∃ c ∈ s.toList, Unicode.isBlank c = false

structure FontFile.WellFormed (f : FontFile) : Prop where
  name : Filled f.name
  weight : 1 ≤ f.weight ∧ f.weight ≤ 1000

structure FontFamily.WellFormed (f : FontFamily) : Prop where
  family : Filled f.family
  resourceId : f.resourceId ≠ ""
  files_ne : f.files ≠ []
  files : ∀ x ∈ f.files, x.WellFormed

/-- Whether an operation has all that it needs. -/
def Operation.WellFormed : Operation → Prop
  | .insertStatement c m code _ => Filled c ∧ Filled m ∧ Filled code
  | .addImport path => Filled path
  | .removeLines contains => Filled contains

structure SourcePatch.WellFormed (p : SourcePatch) : Prop where
  id : Filled p.id
  file : p.file.text ≠ ""
  operation : p.operation.WellFormed

structure LinkPlan.WellFormed (p : LinkPlan) : Prop where
  nonempty : p.fonts ≠ [] ∨ p.patches ≠ []
  fonts : ∀ f ∈ p.fonts, f.WellFormed
  patches : ∀ q ∈ p.patches, q.WellFormed

/-! ## Conditions and what they give rise to -/

/-- A demand on a plan, and what is said if it is not met. -/
structure Condition where
  met : Prop
  issue : PlanIssue

/-- The issues that some conditions give rise to: one for each that is not met, in their order. -/
inductive Reports : List Condition → List PlanIssue → Prop
  | nil : Reports [] []
  | met {c : Condition} {cs : List Condition} {is : List PlanIssue} :
      c.met → Reports cs is → Reports (c :: cs) is
  | violated {c : Condition} {cs : List Condition} {is : List PlanIssue} :
      ¬ c.met → Reports cs is → Reports (c :: cs) (c.issue :: is)

namespace Reports

variable {c : Condition} {cs cs' : List Condition} {is is' : List PlanIssue}

theorem append (h : Reports cs is) (h' : Reports cs' is') : Reports (cs ++ cs') (is ++ is') := by
  induction h with
  | nil => exact h'
  | met hc _ ih => exact .met hc ih
  | violated hc _ ih => exact .violated hc ih

theorem flatMap {α : Type} {as : List α} {f : α → List Condition} {g : α → List PlanIssue}
    (h : ∀ a ∈ as, Reports (f a) (g a)) : Reports (as.flatMap f) (as.flatMap g) := by
  induction as with
  | nil => exact .nil
  | cons a as ih =>
    rw [List.flatMap_cons, List.flatMap_cons]
    exact (h a List.mem_cons_self).append (ih fun b hb => h b (List.mem_cons_of_mem _ hb))

/-- A test for what violates a condition decides about its issue. -/
theorem ite {b : Prop} [Decidable b] (h : b ↔ ¬ c.met) :
    Reports [c] (if b then [c.issue] else []) := by
  split
  · exact .violated (h.1 ‹_›) .nil
  · exact .met (Classical.not_not.1 (mt h.2 ‹_›)) .nil

/-- A test for what meets a condition decides about its issue. -/
theorem ite_not {b : Prop} [Decidable b] (h : b ↔ c.met) :
    Reports [c] (if b then [] else [c.issue]) := by
  split
  · exact .met (h.1 ‹_›) .nil
  · exact .violated (mt h.2 ‹_›) .nil

/-- Conditions that are all met give rise to nothing. -/
theorem of_met (h : ∀ c ∈ cs, c.met) : Reports cs [] := by
  induction cs with
  | nil => exact .nil
  | cons c cs ih =>
    exact .met (h c List.mem_cons_self) (ih fun b hb => h b (List.mem_cons_of_mem _ hb))

theorem eq (h : Reports cs is) (h' : Reports cs is') : is = is' := by
  induction h generalizing is' with
  | nil =>
    cases h'
    rfl
  | met hc _ ih =>
    cases h' with
    | met _ h' => exact ih h'
    | violated hc' _ => exact absurd hc hc'
  | violated hc _ ih =>
    cases h' with
    | met hc' _ => exact absurd hc' hc
    | violated _ h' => rw [ih h']

theorem eq_nil_iff (h : Reports cs is) : is = [] ↔ ∀ c ∈ cs, c.met := by
  constructor
  · rintro rfl
    induction cs with
    | nil => nofun
    | cons c cs ih =>
      cases h with
      | met hc h =>
        intro b hb
        rcases List.mem_cons.1 hb with rfl | hb
        · exact hc
        · exact ih h b hb
  · intro hmet
    exact h.eq (of_met hmet)

end Reports

/-! ## The conditions of a plan -/

def FontFile.conditions (family : String) (f : FontFile) : List Condition :=
  [⟨Filled f.name, .missingField (some family) "fonts.files.name"⟩,
    ⟨1 ≤ f.weight ∧ f.weight ≤ 1000, .weightOutOfRange family f.name f.weight⟩]

/-- A condition that is only made if something holds. -/
def Condition.provided (b : Prop) (c : Condition) : Condition := ⟨b → c.met, c.issue⟩

/-- What is demanded of a family that has a name. -/
def FontFamily.furtherConditions (f : FontFamily) : List Condition :=
  ⟨f.resourceId ≠ "", .unusableName f.family⟩ ::
    ⟨f.files ≠ [], .missingField (some f.family) "fonts.files"⟩ ::
      f.files.flatMap (FontFile.conditions f.family)

def FontFamily.conditions (f : FontFamily) : List Condition :=
  ⟨Filled f.family, .missingField none "fonts.family"⟩ ::
    f.furtherConditions.map (Condition.provided (Filled f.family))

def Operation.conditions (owner : String) : Operation → List Condition
  | .insertStatement c m code _ =>
    [⟨Filled c, .missingField (some owner) "operation.class"⟩,
      ⟨Filled m, .missingField (some owner) "operation.method"⟩,
      ⟨Filled code, .missingField (some owner) "operation.code"⟩]
  | .addImport path => [⟨Filled path, .missingField (some owner) "operation.path"⟩]
  | .removeLines contains => [⟨Filled contains, .missingField (some owner) "operation.contains"⟩]

def SourcePatch.conditions (p : SourcePatch) : List Condition :=
  ⟨Filled p.id, .missingField none "id"⟩ ::
    ⟨p.file.text ≠ "", .missingField (some p.id) "file"⟩ :: p.operation.conditions p.id

def LinkPlan.conditions (p : LinkPlan) : List Condition :=
  ⟨p.fonts ≠ [] ∨ p.patches ≠ [], .empty⟩ ::
    (p.fonts.flatMap FontFamily.conditions ++ p.patches.flatMap SourcePatch.conditions)

/-! ## Conditions that are met -/

theorem Operation.conditions_met_iff (owner : String) (o : Operation) :
    (∀ c ∈ o.conditions owner, c.met) ↔ o.WellFormed := by
  cases o <;> simp [Operation.conditions, Operation.WellFormed]

theorem FontFile.conditions_met_iff (family : String) (f : FontFile) :
    (∀ c ∈ f.conditions family, c.met) ↔ f.WellFormed := by
  rw [FontFile.conditions, List.forall_mem_cons, List.forall_mem_singleton]
  exact ⟨fun ⟨hname, hweight⟩ => ⟨hname, hweight⟩, fun h => ⟨h.name, h.weight⟩⟩

theorem FontFamily.conditions_met_iff (f : FontFamily) :
    (∀ c ∈ f.conditions, c.met) ↔ f.WellFormed := by
  have hfurther : (∀ c ∈ f.furtherConditions, c.met) ↔
      f.resourceId ≠ "" ∧ f.files ≠ [] ∧ ∀ x ∈ f.files, x.WellFormed := by
    simp only [FontFamily.furtherConditions, List.forall_mem_cons, List.forall_mem_flatMap,
      FontFile.conditions_met_iff]
  rw [FontFamily.conditions, List.forall_mem_cons, List.forall_mem_map]
  constructor
  · rintro ⟨hfamily, h⟩
    obtain ⟨hid, hne, hfiles⟩ := hfurther.1 fun c hc => h c hc hfamily
    exact ⟨hfamily, hid, hne, hfiles⟩
  · intro h
    exact ⟨h.family, fun c hc _ => hfurther.2 ⟨h.resourceId, h.files_ne, h.files⟩ c hc⟩

theorem SourcePatch.conditions_met_iff (p : SourcePatch) :
    (∀ c ∈ p.conditions, c.met) ↔ p.WellFormed := by
  simp only [SourcePatch.conditions, List.forall_mem_cons, Operation.conditions_met_iff]
  exact ⟨fun ⟨hid, hfile, ho⟩ => ⟨hid, hfile, ho⟩, fun h => ⟨h.id, h.file, h.operation⟩⟩

theorem LinkPlan.conditions_met_iff (p : LinkPlan) :
    (∀ c ∈ p.conditions, c.met) ↔ p.WellFormed := by
  simp only [LinkPlan.conditions, List.forall_mem_cons, List.forall_mem_append,
    List.forall_mem_flatMap, FontFamily.conditions_met_iff, SourcePatch.conditions_met_iff]
  exact ⟨fun ⟨hne, hfonts, hpatches⟩ => ⟨hne, hfonts, hpatches⟩,
    fun h => ⟨h.nonempty, h.fonts, h.patches⟩⟩

/-! ## What is reported -/

theorem isBlankString_iff {s : String} : isBlankString s = true ↔ ¬ Filled s := by
  rw [isBlankString, Unicode.isBlankText, List.all_eq_true]
  constructor
  · rintro h ⟨c, hc, hblank⟩
    rw [h c hc] at hblank
    nomatch hblank
  · intro h c hc
    cases hblank : Unicode.isBlank c with
    | true => rfl
    | false => exact absurd ⟨c, hc, hblank⟩ h

theorem FontFile.reports_issues (family : String) (f : FontFile) :
    Reports (f.conditions family) (f.issues family) :=
  Reports.append (.ite isBlankString_iff) (.ite_not isFontWeight_iff)

/-- Conditions whose provision holds give rise to what they give rise to without it. -/
theorem Reports.provided {b : Prop} {cs : List Condition} {is : List PlanIssue} (hb : b)
    (h : Reports cs is) : Reports (cs.map (Condition.provided b)) is := by
  induction h with
  | nil => exact .nil
  | met hc _ ih => exact .met (fun _ => hc) ih
  | violated hc _ ih => exact .violated (fun h => hc (h hb)) ih

theorem FontFamily.reports_issues (f : FontFamily) : Reports f.conditions f.issues := by
  unfold FontFamily.issues
  split
  · rename_i hblank
    have hunnamed : ¬ Filled f.family := isBlankString_iff.1 hblank
    refine .violated hunnamed (.of_met fun c hc => ?_)
    obtain ⟨c, -, rfl⟩ := List.mem_map.1 hc
    exact fun hfilled => absurd hfilled hunnamed
  · rename_i hblank
    have hnamed : Filled f.family := Classical.not_not.1 (mt isBlankString_iff.2 hblank)
    have hid : Reports [⟨f.resourceId ≠ "", .unusableName f.family⟩]
        (if f.resourceId = "" then [.unusableName f.family] else []) := .ite Classical.not_not.symm
    have hfiles : Reports [⟨f.files ≠ [], .missingField (some f.family) "fonts.files"⟩]
        (if f.files = [] then [.missingField (some f.family) "fonts.files"] else []) :=
      .ite Classical.not_not.symm
    have hfile : Reports (f.files.flatMap (FontFile.conditions f.family))
        (f.files.flatMap (FontFile.issues f.family)) :=
      .flatMap fun x _ => FontFile.reports_issues f.family x
    exact .met hnamed (.provided hnamed ((hid.append hfiles).append hfile))

/-- Fields that are needed are reported if they are blank. -/
theorem reports_fields (owner : String) (fields : List (String × String)) :
    Reports (fields.map fun (field, value) => ⟨Filled value, .missingField (some owner) field⟩)
      ((fields.filter fun (_, value) => isBlankString value).map
        fun (field, _) => .missingField (some owner) field) := by
  induction fields with
  | nil => exact .nil
  | cons x fields ih =>
    by_cases hblank : isBlankString x.2 = true
    · have hfilter : ((x :: fields).filter fun (_, value) => isBlankString value) =
          x :: fields.filter fun (_, value) => isBlankString value := List.filter_cons_of_pos hblank
      rw [hfilter]
      exact .violated (isBlankString_iff.1 hblank) ih
    · have hfilter : ((x :: fields).filter fun (_, value) => isBlankString value) =
          fields.filter fun (_, value) => isBlankString value := List.filter_cons_of_neg hblank
      rw [hfilter]
      exact .met (Classical.not_not.1 (mt isBlankString_iff.2 hblank)) ih

theorem Operation.conditions_eq (owner : String) (o : Operation) : o.conditions owner =
    o.required.map fun (field, value) => ⟨Filled value, .missingField (some owner) field⟩ := by
  cases o <;> rfl

theorem SourcePatch.reports_issues (p : SourcePatch) : Reports p.conditions p.issues := by
  have hid : Reports [⟨Filled p.id, .missingField none "id"⟩]
      (if isBlankString p.id then [.missingField none "id"] else []) := .ite isBlankString_iff
  have hfile : Reports [⟨p.file.text ≠ "", .missingField (some p.id) "file"⟩]
      (if p.file.text = "" then [.missingField (some p.id) "file"] else []) :=
    .ite Classical.not_not.symm
  have hoperation := reports_fields p.id p.operation.required
  rw [← Operation.conditions_eq] at hoperation
  exact (hid.append hfile).append hoperation

theorem LinkPlan.reports_parts (p : LinkPlan) :
    Reports (p.fonts.flatMap FontFamily.conditions ++ p.patches.flatMap SourcePatch.conditions)
      (p.fonts.flatMap FontFamily.issues ++ p.patches.flatMap SourcePatch.issues) :=
  Reports.append (.flatMap fun f _ => f.reports_issues) (.flatMap fun q _ => q.reports_issues)

/-- The issues of a plan are those that its conditions give rise to. -/
theorem LinkPlan.reports_issues (p : LinkPlan) : Reports p.conditions p.issues := by
  have hempty : Reports [⟨p.fonts ≠ [] ∨ p.patches ≠ [], .empty⟩]
      (if p.fonts = [] && p.patches = [] then [.empty] else []) := by
    refine .ite ?_
    rw [Bool.and_eq_true, decide_eq_true_eq, decide_eq_true_eq, not_or, Classical.not_not,
      Classical.not_not]
  rw [issues, List.append_assoc]
  exact hempty.append p.reports_parts

theorem LinkPlan.isValid_iff {p : LinkPlan} : p.isValid = true ↔ p.WellFormed := by
  rw [isValid, decide_eq_true_eq, p.reports_issues.eq_nil_iff, conditions_met_iff]

/-! ## One family or patch -/

theorem Reports.exists_of_mem {cs : List Condition} {is : List PlanIssue} (h : Reports cs is) :
    ∀ i ∈ is, ∃ c ∈ cs, c.issue = i := by
  induction h with
  | nil => nofun
  | met _ _ ih =>
    intro i hi
    obtain ⟨c, hc, rfl⟩ := ih i hi
    exact ⟨c, List.mem_cons_of_mem _ hc, rfl⟩
  | violated _ _ ih =>
    intro i hi
    rcases List.mem_cons.1 hi with rfl | hi
    · exact ⟨_, List.mem_cons_self, rfl⟩
    · obtain ⟨c, hc, rfl⟩ := ih i hi
      exact ⟨c, List.mem_cons_of_mem _ hc, rfl⟩

/-- Where no condition stands for the plan being empty, that is not reported. -/
theorem Reports.filter_eq_self {cs : List Condition} {is : List PlanIssue} (h : Reports cs is)
    (hne : ∀ c ∈ cs, c.issue ≠ .empty) : is.filter (· ≠ .empty) = is := by
  refine List.filter_eq_self.2 fun i hi => decide_eq_true ?_
  obtain ⟨c, hc, rfl⟩ := h.exists_of_mem i hi
  exact hne c hc

theorem FontFamily.issue_ne_empty (f : FontFamily) : ∀ c ∈ f.conditions, c.issue ≠ .empty := by
  simp only [conditions, furtherConditions, FontFile.conditions, List.forall_mem_cons,
    List.forall_mem_map, List.forall_mem_flatMap, Condition.provided]
  simp

theorem SourcePatch.issue_ne_empty (q : SourcePatch) : ∀ c ∈ q.conditions, c.issue ≠ .empty := by
  simp only [conditions, Operation.conditions_eq, List.forall_mem_cons, List.forall_mem_map]
  simp

namespace LinkPlan

/-- What is said about the families and patches of a plan. -/
def partIssues (p : LinkPlan) : List PlanIssue := p.issues.filter (· ≠ .empty)

theorem partIssues_eq (p : LinkPlan) : p.partIssues =
    p.fonts.flatMap FontFamily.issues ++ p.patches.flatMap SourcePatch.issues := by
  have hempty : (if p.fonts = [] && p.patches = [] then [PlanIssue.empty] else []).filter
      (· ≠ .empty) = [] := by
    split <;> rfl
  have hparts := p.reports_parts.filter_eq_self (List.forall_mem_append.2
    ⟨List.forall_mem_flatMap.2 fun f _ => f.issue_ne_empty,
      List.forall_mem_flatMap.2 fun q _ => q.issue_ne_empty⟩)
  rw [partIssues, issues, List.append_assoc, List.filter_append, hempty, hparts, List.nil_append]

/-- Whatever families stand at one place of a plan, the same is said about the rest. -/
theorem partIssues_of_fonts (p : LinkPlan) (xs ys : List FontFamily) :
    ∃ before after, ∀ fs : List FontFamily, partIssues { p with fonts := xs ++ fs ++ ys } =
      before ++ fs.flatMap FontFamily.issues ++ after := by
  refine ⟨xs.flatMap FontFamily.issues,
    ys.flatMap FontFamily.issues ++ p.patches.flatMap SourcePatch.issues, fun fs => ?_⟩
  rw [partIssues_eq, List.flatMap_append, List.flatMap_append, List.append_assoc]

/-- Whatever patches stand at one place of a plan, the same is said about the rest. -/
theorem partIssues_of_patches (p : LinkPlan) (xs ys : List SourcePatch) :
    ∃ before after, ∀ qs : List SourcePatch, partIssues { p with patches := xs ++ qs ++ ys } =
      before ++ qs.flatMap SourcePatch.issues ++ after := by
  refine ⟨p.fonts.flatMap FontFamily.issues ++ xs.flatMap SourcePatch.issues,
    ys.flatMap SourcePatch.issues, fun qs => ?_⟩
  rw [partIssues_eq, List.flatMap_append, List.flatMap_append]
  simp only [List.append_assoc]

/-! ## Plans that are checked -/

theorem checked_eq_ok_iff {p : LinkPlan} {path : Option Path} :
    p.checked path = .ok p ↔ p.WellFormed := by
  rw [checked, ← isValid_iff]
  split
  · exact iff_of_true rfl ‹_›
  · exact iff_of_false nofun ‹_›

theorem checked_of_not_wellFormed {p : LinkPlan} (path : Option Path) (h : ¬ p.WellFormed) :
    p.checked path = .error (.invalid path p.issues) := by
  rw [checked, if_neg (mt isValid_iff.1 h)]

/-- Only well-formed plans are loaded. -/
theorem wellFormed_of_ofToml {text : String} {path : Option Path} {p : LinkPlan}
    (h : ofToml text path = .ok p) : p.WellFormed := by
  unfold ofToml at h
  split at h
  · nomatch h
  · rename_i q _
    by_cases hq : q.WellFormed
    · rw [checked_eq_ok_iff.2 hq] at h
      cases h
      exact hq
    · rw [checked_of_not_wellFormed path hq] at h
      nomatch h

/-- A plan is accepted just if it is well formed.  Otherwise the issues are one for each condition
that it violates, in the order of the plan; of a family without a name only that is said; and what is
said about one family or patch does not depend on the others. -/
theorem checked_exact (p : LinkPlan) (path : Option Path) :
    (p.checked path = .ok p ↔ p.WellFormed) ∧
    (¬ p.WellFormed → p.checked path = .error (.invalid path p.issues)) ∧
    (∀ is, Reports p.conditions is ↔ is = p.issues) ∧
    (∀ f ∈ p.fonts, ¬ Filled f.family → f.issues = [.missingField none "fonts.family"]) ∧
    (∀ xs ys, ∃ before after, ∀ fs : List FontFamily,
      partIssues { p with fonts := xs ++ fs ++ ys } =
        before ++ fs.flatMap FontFamily.issues ++ after) ∧
    (∀ xs ys, ∃ before after, ∀ qs : List SourcePatch,
      partIssues { p with patches := xs ++ qs ++ ys } =
        before ++ qs.flatMap SourcePatch.issues ++ after) := by
  refine ⟨checked_eq_ok_iff, checked_of_not_wellFormed path, fun is => ?_, fun f _ hunnamed => ?_,
    p.partIssues_of_fonts, p.partIssues_of_patches⟩
  · constructor
    · intro h
      exact h.eq p.reports_issues
    · rintro rfl
      exact p.reports_issues
  · rw [FontFamily.issues, if_pos (isBlankString_iff.2 hunnamed)]

/-- A family without a name, one with a file that has neither a name nor a weight, and a patch that
lacks its file and its text. -/
def faultyPlan : LinkPlan where
  info := ⟨"", none, none⟩
  fonts := [⟨" ", none, [⟨"", 0, false⟩]⟩, ⟨"Lato", some "-", [⟨"", 1001, false⟩]⟩]
  patches := [⟨"init", ⟨""⟩, .insertStatement "App" "onCreate" "\t" none⟩]

theorem checked_exact_of_faults : ¬ faultyPlan.WellFormed ∧
    faultyPlan.checked none = .error (.invalid none
      [.missingField none "fonts.family", .unusableName "Lato",
        .missingField (some "Lato") "fonts.files.name", .weightOutOfRange "Lato" "" 1001,
        .missingField (some "init") "file", .missingField (some "init") "operation.code"]) := by
  have hissues : faultyPlan.issues = [.missingField none "fonts.family", .unusableName "Lato",
      .missingField (some "Lato") "fonts.files.name", .weightOutOfRange "Lato" "" 1001,
      .missingField (some "init") "file", .missingField (some "init") "operation.code"] := by
    decide +kernel
  have hfaulty : ¬ faultyPlan.WellFormed := by
    rw [← isValid_iff, isValid, hissues]
    decide
  exact ⟨hfaulty, hissues ▸ (checked_exact faultyPlan none).2.1 hfaulty⟩

end LinkPlan

end AndroidFonts
