import AgentDocs.Classes.Visibility
import AgentDocs.Template.Checked

/-!
What a template declares. The mapping of its frontmatter is read key by key; keys that are no
directives are of no interest, but a directive itself admits only its own keys.
-/
namespace AgentDocs.Template

/-- When a template is expanded: those of a high rank first, main templates last. -/
inductive Priority where
  | main
  | ranked (rank : Nat)
  deriving DecidableEq, Repr

instance : Inhabited Priority := ⟨.ranked 5⟩

def highestRank : Nat := 10

/-- Whether a template is expanded before another. -/
def Priority.precedes : Priority → Priority → Bool
  | .ranked a, .ranked b => a > b
  | .ranked _, .main => true
  | .main, _ => false

/-- A class whose signature is shown. -/
structure ApiEntry where
  className : String
  visibility : Visibility
  deriving DecidableEq, Repr

/-- Where an example comes from: the file that declares a class, or a file below the root. -/
inductive ExampleSource where
  | className (name : String)
  | file (reference : String)
  deriving DecidableEq, Repr

structure ExampleEntry where
  source : ExampleSource
  /-- Texts that must occur in the example. -/
  contains : List String
  deriving DecidableEq, Repr

structure Skill where
  target : String
  name : String
  description : String
  deriving DecidableEq, Repr

structure Doc where
  target : String
  description : String
  deriving DecidableEq, Repr

structure Prompt where
  name : String
  prompt : String
  deriving DecidableEq, Repr

structure Spec where
  main : Bool
  priority : Priority
  /-- Whether placeholders of commands stay as they are. -/
  literal : Bool
  api : List ApiEntry
  examples : List ExampleEntry
  skill : Option Skill
  output : Option String
  docs : Option Doc
  commands : List Prompt
  deriving DecidableEq, Repr

/-- A rank that is written as an integer in range. -/
def rank? : Json → Option Nat
  | .number (.int i) => if 0 ≤ i ∧ i ≤ (highestRank : Int) then some i.toNat else none
  | _ => none

def readRank (path : String) (v : Json) : Checked Priority :=
  match rank? v with
  | some rank => pure (.ranked rank)
  | none => ⟨default, [⟨path, "integer between 0 and 10", describe v⟩]⟩

def readMetadata (path : String) (v : Json) : Checked Priority := do
  match ← mapping ["priority"] path v with
  | none => return default
  | some s => s.optional "priority" default readRank

def readFlag (path : String) (v : Json) : Checked Bool :=
  return (← boolean path v).getD false

def readMacros (path : String) (v : Json) : Checked Bool := do
  match ← mapping ["disabled"] path v with
  | none => return false
  | some s => s.optional "disabled" false readFlag

def readApiEntry (path : String) (v : Json) : Checked (Option ApiEntry) := do
  match v with
  | .string _ => return (← nonEmptyString path v).map (⟨·, .publicOnly⟩)
  | _ =>
    match ← mapping ["class", "visibilities"] path v with
    | none => return none
    | some s =>
      let name ← s.required "class"
      let visibilities ← s.optional "visibilities" [] stringList
      return name.map (⟨·, .ofList visibilities⟩)

def readExampleSource (s : Section) : Checked (Option ExampleSource) := do
  match Json.get? "class" s.members, Json.get? "file" s.members with
  | some _, none => return (← s.required "class").map .className
  | none, some _ => return (← s.required "file").map .file
  | some _, some _ => complain s.path "either class or file" "both"
  | none, none => complain s.path "class or file" "missing"

def readExample (path : String) (v : Json) : Checked (Option ExampleEntry) := do
  match v with
  | .string _ => return (← nonEmptyString path v).map (⟨.className ·, []⟩)
  | _ =>
    match ← mapping ["class", "file", "contains"] path v with
    | none => return none
    | some s =>
      let source ← readExampleSource s
      let contains ← s.optional "contains" [] stringList
      return source.map (⟨·, contains⟩)

def readSkill (path : String) (v : Json) : Checked (Option Skill) := do
  match ← mapping ["target", "name", "description"] path v with
  | none => return none
  | some s =>
    let target ← s.required "target"
    let name ← s.required "name"
    let description ← s.required "description"
    return do return ⟨← target, ← name, ← description⟩

def readOutput (path : String) (v : Json) : Checked (Option String) := do
  match ← mapping ["target"] path v with
  | none => return none
  | some s => s.required "target"

def readDocs (path : String) (v : Json) : Checked (Option Doc) := do
  match ← mapping ["target", "description"] path v with
  | none => return none
  | some s =>
    let target ← s.required "target"
    let description ← s.required "description"
    return do return ⟨← target, ← description⟩

def readPrompt (path : String) (v : Json) : Checked (Option Prompt) := do
  match ← mapping ["name", "prompt"] path v with
  | none => return none
  | some s =>
    let name ← s.required "name"
    let prompt ← s.required "prompt"
    return do return ⟨← name, ← prompt⟩

/-- Reads all directives of a mapping. -/
def Spec.check (data : List (String × Json)) : Checked Spec := do
  let top : Section := ⟨"", data⟩
  let priority ← top.optional "metadata" default readMetadata
  let main ← top.optional "main" false readFlag
  let literal ← top.optional "macros" false readMacros
  let api ← top.optional "api" [] fun path => eachItem path readApiEntry
  let examples ← top.optional "examples" [] fun path => eachItem path readExample
  let skill ← top.optional "skill" none readSkill
  let output ← top.optional "output" none readOutput
  let docs ← top.optional "docs" none readDocs
  let commands ← top.optional "commands" [] fun path => eachItem path readPrompt
  return ⟨main, if main then .main else priority, literal, api, examples, skill, output, docs, commands⟩

/-- What a template declares, if its mapping has no fault. -/
def Spec.read (data : List (String × Json)) : Except (List Violation) Spec := (Spec.check data).result

/-- The priority that a mapping declares, faults aside. -/
def lenientPriority (data : List (String × Json)) : Priority :=
  match Json.get? "main" data with
  | some (.bool true) => .main
  | _ =>
    match Json.get? "metadata" data with
    | some (.object metadata) =>
      match (Json.get? "priority" metadata).bind rank? with
      | some rank => .ranked rank
      | none => default
    | _ => default

end AgentDocs.Template
