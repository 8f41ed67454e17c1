/-
# `AndroidFonts.Plan.Toml` — plans written in TOML

Each record is read from a table by its field names, or from an array that gives the fields in
order.  Fields that are not known are passed over, optional ones may be missing, and no value is
converted from one type to another.
-/
import AndroidFonts.Plan.Basic
import AndroidFonts.Toml.Document

namespace AndroidFonts

namespace Toml.Value

open Text

/-- The fields of a record by name or by place; each is none if it is missing.  A date is a record
with none of the fields that are asked for. -/
def fields? (names : List String) : Value → Option (List (Option Value))
  | .table entries => some (names.map fun name => entries.lookup name)
  | .array items => some ((List.range names.length).map fun i => items[i]?)
  | .dateTime => some (names.map fun _ => none)
  | _ => none

def string? : Value → Option String
  | .string s => some s
  | _ => none

def boolean? : Value → Option Bool
  | .boolean b => some b
  | _ => none

/-- A weight, which has to fit 16 bits. -/
def weight? : Value → Option Nat
  | .integer n => if 0 ≤ n && n < shortLimit then some n.toNat else none
  | _ => none

/-- The items of an array, each read the same way. -/
def list? {α : Type} (read : Value → Option α) : Value → Option (List α)
  | .array items => items.mapM read
  | _ => none

/-- A field that may be missing. -/
def optional? {α : Type} (read : Value → Option α) : Option Value → Option (Option α)
  | none => some none
  | some v => (read v).map some

/-- A dialect by its exact name.  The name may also be the one key of a table, with nothing in
it. -/
def dialect? : Value → Option Dialect
  | .string "java" => some .java
  | .string "kotlin" => some .kotlin
  | .table [(name, .table [])] => dialect? (.string name)
  | .table [(name, .array [])] => dialect? (.string name)
  | _ => none

def planInfo? (v : Value) : Option PlanInfo := do
  let [name, description, dialect] ← v.fields? ["name", "description", "dialect"] | none
  return { name := (← optional? string? name).getD ""
           description := ← optional? string? description
           dialect := ← optional? dialect? dialect }

def fontFile? (v : Value) : Option FontFile := do
  let [name, weight, italic] ← v.fields? ["name", "weight", "italic"] | none
  return { name := ← string? (← name)
           weight := ← weight? (← weight)
           italic := (← optional? boolean? italic).getD false }

def fontFamily? (v : Value) : Option FontFamily := do
  let [family, id, files] ← v.fields? ["family", "id", "files"] | none
  return { family := ← string? (← family)
           id := ← optional? string? id
           files := (← optional? (list? fontFile?) files).getD [] }

/-- An operation of a kind, from the record of its other fields.  A record given as an array has no
items beyond its fields. -/
def operationOf? (kind : String) (v : Value) : Option Operation :=
  match kind with
  | "insert-statement" => do
    let [c, m, code, afterLine] ← exactly 4 (← v.fields? ["class", "method", "code", "after_line"])
      | none
    return .insertStatement (← string? (← c)) (← string? (← m)) (← string? (← code))
      (← optional? string? afterLine)
  | "add-import" => do
    let [path] ← exactly 1 (← v.fields? ["path"]) | none
    return .addImport (← string? (← path))
  | "remove-lines" => do
    let [contains] ← exactly 1 (← v.fields? ["contains"]) | none
    return .removeLines (← string? (← contains))
  | _ => none
where
  exactly (n : Nat) (fields : List (Option Value)) : Option (List (Option Value)) :=
    match v with
    | .array items => if items.length ≤ n then some fields else none
    | _ => some fields

/-- An operation, whose kind is the field `type` or the first item. -/
def operation? : Value → Option Operation
  | .table entries => do operationOf? (← string? (← entries.lookup "type")) (.table entries)
  | .array (kind :: items) => do operationOf? (← string? kind) (.array items)
  | _ => none

def sourcePatch? (v : Value) : Option SourcePatch := do
  let [id, file, operation] ← v.fields? ["id", "file", "operation"] | none
  return { id := ← string? (← id)
           file := ⟨← string? (← file)⟩
           operation := ← operation? (← operation) }

def linkPlan? (v : Value) : Option LinkPlan := do
  let [info, fonts, patches] ← v.fields? ["meta", "fonts", "patches"] | none
  return { info := (← optional? planInfo? info).getD ⟨"", none, none⟩
           fonts := (← optional? (list? fontFamily?) fonts).getD []
           patches := (← optional? (list? sourcePatch?) patches).getD [] }

end Toml.Value

namespace LinkPlan

/-- The plan, if nothing is wrong with it. -/
def checked (p : LinkPlan) (path : Option Path) : Except PlanError LinkPlan :=
  if p.isValid then .ok p else .error (.invalid path p.issues)

/-- The plan a TOML text holds; the path is only mentioned in errors. -/
def ofToml (text : String) (path : Option Path) : Except PlanError LinkPlan :=
  match (Toml.parse? text).bind fun entries => Toml.Value.linkPlan? (.table entries) with
  | none => .error (.notToml path)
  | some p => p.checked path

end LinkPlan

end AndroidFonts
