/-
# `AndroidFonts.Command.Invocation` — what the program is asked to do

Each command takes some of a common stock of options.  An option may be given once, except for
families; a family, a plan, a weight and at least one font file are required where they are taken.
-/
import AndroidFonts.Command.Options
import AndroidFonts.Font.Argument
import AndroidFonts.Link.Outcome

namespace AndroidFonts.Command

/-- A request to the program. -/
inductive Invocation where
  | help
  | version
  | link (project plan : Path) (mode : RunMode) (showDiff : Bool)
  | unlink (project : Path) (families : List String) (dialect : Option Dialect) (mode : RunMode)
  | status (project plan : Path)
  | descriptor (fonts : List FontFile) (asJson : Bool)
  | weight (weight : Int)
deriving Repr, DecidableEq

/-! ## Options and commands -/

def helpOption : OptionSpec := ⟨"help", some 'h', none⟩
def versionOption : OptionSpec := ⟨"version", some 'V', none⟩
def projectOption : OptionSpec := ⟨"project", some 'p', some "PROJECT"⟩
def planOption : OptionSpec := ⟨"config", some 'c', some "CONFIG"⟩
def dryRunOption : OptionSpec := ⟨"dry-run", some 'n', none⟩
def diffOption : OptionSpec := ⟨"diff", some 'd', none⟩
def familyOption : OptionSpec := ⟨"family", some 'f', some "FAMILIES"⟩
def dialectOption : OptionSpec := ⟨"dialect", none, some "DIALECT"⟩
def jsonOption : OptionSpec := ⟨"json", none, none⟩

/-- The program without a command. -/
def topShape : Shape := ⟨[helpOption, versionOption], some 0, false⟩

def linkShape : Shape :=
  ⟨[helpOption, projectOption, planOption, dryRunOption, diffOption], some 0, false⟩

def unlinkShape : Shape :=
  ⟨[helpOption, projectOption, familyOption, dialectOption, dryRunOption], some 0, false⟩

def statusShape : Shape := ⟨[helpOption, projectOption, planOption], some 0, false⟩
def descriptorShape : Shape := ⟨[helpOption, jsonOption], none, false⟩
def weightShape : Shape := ⟨[helpOption], some 1, true⟩

/-- What font files are called where they are words. -/
def fontsWord : String := "<FONTS>..."

/-- What the weight is called where it is a word. -/
def weightWord : String := "<WEIGHT>"

/-! ## Settings -/

/-- What the options and words of a command come to, words read as `ω`. -/
structure Settings (ω : Type) where
  project : Option Path
  plan : Option Path
  families : List String
  dialect : Option Dialect
  dryRun : Bool
  showDiff : Bool
  asJson : Bool
  words : List ω

/-- Nothing is set. -/
def Settings.initial {ω : Type} : Settings ω := ⟨none, none, [], none, false, false, false, []⟩

/-- A value that may be given once. -/
def once {α : Type} (o : OptionSpec) (old : Option α) (new : Except UsageError α) :
    Except UsageError (Option α) :=
  match old with
  | some _ => .error (.repeated o.display)
  | none => new.map some

/-- A flag that may be given once. -/
def onceFlag (o : OptionSpec) (old : Bool) : Except UsageError Bool :=
  if old then .error (.repeated o.display) else .ok true

/-- A path, which is not empty. -/
def readPath (o : OptionSpec) (text : String) : Except UsageError Path :=
  if text = "" then .error (.missingValue o.display) else .ok ⟨text⟩

/-- A dialect by its name. -/
def readDialect (text : String) : Except UsageError Dialect :=
  match Dialect.ofName text with
  | .ok d => .ok d
  | .error e => .error (.invalidValue text dialectOption.display e.message)

/-- A font file. -/
def readFont (text : String) : Except UsageError FontFile :=
  match FontFile.ofArgument text with
  | .ok f => .ok f
  | .error e => .error (.invalidValue text fontsWord e.message)

/-- A whole number, which need not be the weight of a font file. -/
def readWeight (text : String) : Except UsageError Int :=
  match Text.readInt64 text.toList with
  | .ok n => .ok n
  | .error e => .error (.invalidValue text weightWord e.message)

/-- A word where none is taken. -/
def noWord (text : String) : Except UsageError Empty := .error (.unexpected text)

namespace Settings

variable {ω : Type}

/-- The settings with one more item. -/
def accept (readWord : String → Except UsageError ω) (s : Settings ω) :
    Item → Except UsageError (Settings ω)
  | .word text => do return { s with words := s.words ++ [← readWord text] }
  | .flag o =>
    if o = dryRunOption then do return { s with dryRun := ← onceFlag o s.dryRun }
    else if o = diffOption then do return { s with showDiff := ← onceFlag o s.showDiff }
    else if o = jsonOption then do return { s with asJson := ← onceFlag o s.asJson }
    else .error (.unexpected o.display)
  | .value o text _ =>
    if o = projectOption then do return { s with project := ← once o s.project (readPath o text) }
    else if o = planOption then do return { s with plan := ← once o s.plan (readPath o text) }
    else if o = familyOption then .ok { s with families := s.families ++ [text] }
    else if o = dialectOption then do
      return { s with dialect := ← once o s.dialect (readDialect text) }
    else .error (.unexpected o.display)

/-- The settings that arguments give, or none if they ask for help. -/
def ofArguments (shape : Shape) (readWord : String → Except UsageError ω) (args : List String) :
    Except UsageError (Option (Settings ω)) :=
  (read shape ⟨false, 0, none⟩ args).evaluate helpOption (accept readWord) initial

/-- The path of the project, which is the current directory unless it is given. -/
def projectPath (s : Settings ω) : Path := s.project.getD ⟨"."⟩

/-- The path of the plan. -/
def planPath (s : Settings ω) : Except UsageError Path :=
  match s.plan with
  | some p => .ok p
  | none => .error (.missingArgument planOption.display)

def mode (s : Settings ω) : RunMode := if s.dryRun then .check else .write

end Settings

/-! ## Requests -/

namespace Invocation

/-- The request that a command makes of its arguments. -/
def ofSettings {ω : Type} (shape : Shape) (readWord : String → Except UsageError ω)
    (request : Settings ω → Except UsageError Invocation) (args : List String) :
    Except UsageError Invocation := do
  match ← Settings.ofArguments shape readWord args with
  | some s => request s
  | none => return .help

def ofLink (s : Settings Empty) : Except UsageError Invocation := do
  return .link s.projectPath (← s.planPath) s.mode s.showDiff

def ofUnlink (s : Settings Empty) : Except UsageError Invocation :=
  if s.families = [] then .error (.missingArgument familyOption.display)
  else .ok (.unlink s.projectPath s.families s.dialect s.mode)

def ofStatus (s : Settings Empty) : Except UsageError Invocation := do
  return .status s.projectPath (← s.planPath)

def ofDescriptor (s : Settings FontFile) : Except UsageError Invocation :=
  if s.words = [] then .error (.missingArgument fontsWord)
  else .ok (.descriptor s.words s.asJson)

def ofWeight (s : Settings Int) : Except UsageError Invocation :=
  match s.words with
  | w :: _ => .ok (.weight w)
  | [] => .error (.missingArgument weightWord)

/-- The request of options without a command, the first of which decides. -/
def ofTop (r : Reading) : Except UsageError Invocation :=
  match r.items, r.failure with
  | .flag o :: _, _ => .ok (if o = helpOption then .help else .version)
  | _, some e => .error e
  | _, none => .error .missingCommand

/-- The commands by their names. -/
def commandNames : List String := ["link", "unlink", "status", "descriptor", "weight", "help"]

/-- The request that arguments of `help` make: one command may be named. -/
def ofHelp : List String → Except UsageError Invocation
  | [] => .ok .help
  | name :: rest =>
    if name ∉ commandNames then .error (.unknownCommand name)
    else
      match rest with
      | [] => .ok .help
      | extra :: _ => .error (.unknownCommand extra)

/-- The request of a command. -/
def ofCommand (name : String) (args : List String) : Except UsageError Invocation :=
  match name with
  | "link" => ofSettings linkShape noWord ofLink args
  | "unlink" => ofSettings unlinkShape noWord ofUnlink args
  | "status" => ofSettings statusShape noWord ofStatus args
  | "descriptor" => ofSettings descriptorShape readFont ofDescriptor args
  | "weight" => ofSettings weightShape readWeight ofWeight args
  | "help" => ofHelp args
  | name => .error (.unknownCommand name)

/-- The request of the arguments of the program. -/
def ofArguments : List String → Except UsageError Invocation
  | [] => .error .missingCommand
  | name :: args =>
    if (topShape.optionText? ⟨false, 0, none⟩ name).isSome then
      ofTop (read topShape ⟨false, 0, none⟩ (name :: args))
    else ofCommand name args

end Invocation

end AndroidFonts.Command
