import AgentDocs.Template.Parameters
import AgentDocs.Text.Blank
import AgentDocs.Yaml.Decode

/-!
The configuration of a project: a YAML mapping from settings to values, or the values alone as a
sequence in the order of the settings. What is not set keeps its default.
-/
namespace AgentDocs
open Yaml

structure Config where
  /-- Where the templates are. -/
  sourceDir : String
  docsDir : Option String
  /-- Where commands that are declared by headers are put. -/
  commandsDir : Option String
  importsDir : String
  /-- The name of a file that is no template. -/
  reservedFile : String
  parameters : Parameters
  deriving DecidableEq, Repr

namespace Config

def standard : Config := ⟨"docs-src", none, none, "ai-docs/imports", "CLAUDE.md", []⟩

instance : Inhabited Config := ⟨standard⟩

/-- The text of a scalar. -/
def readText (d : Document) (node : Node) : Decode String := d.keyText node

/-- The text of a scalar, unless it is a plain null. -/
def readOptional (d : Document) (node : Node) : Decode (Option String) := do
  match ← d.resolve node with
  | .scalar text plain tag =>
    if !plain then return some text
    else if tag == Yaml.standard "null" then
      if isNull text then return none else Decode.fail
    else if tag.isSome then return some text
    else return if text.isEmpty || isNull text then none else some text
  | _ => Decode.fail

/-- Whether a node stands for nothing at all. -/
def isVoid : Node → Bool
  | .scalar text plain _ => plain && text.isEmpty
  | _ => false

def readParameters (d : Document) (node : Node) : Decode Parameters := do
  match ← d.resolve node with
  | .mapping entries _ =>
    return .ofList (← entries.mapM fun (key, value) => do
      return (← d.keyText key, ← d.keyText value))
  | other => if isVoid other then return [] else Decode.fail

inductive Setting where
  | sourceDir
  | docsDir
  | commandsDir
  | importsDir
  | reservedFile
  | parameters
  deriving DecidableEq, Repr

/-- The settings in order, by their names. -/
def settings : List (String × Setting) :=
  [("source-dir", .sourceDir), ("docs-dir", .docsDir), ("claude-commands-dir", .commandsDir),
    ("imports-dir", .importsDir), ("reserved-file", .reservedFile), ("parameters", .parameters)]

def set (d : Document) (c : Config) (s : Setting) (node : Node) : Decode Config := do
  match s with
  | .sourceDir => return { c with sourceDir := ← readText d node }
  | .docsDir => return { c with docsDir := ← readOptional d node }
  | .commandsDir => return { c with commandsDir := ← readOptional d node }
  | .importsDir => return { c with importsDir := ← readText d node }
  | .reservedFile => return { c with reservedFile := ← readText d node }
  | .parameters => return { c with parameters := ← readParameters d node }

/-- Sets what the entries of a mapping name; a name is known and comes once. -/
def setNamed (d : Document) (seen : List String) (c : Config) :
    List (Node × Node) → Decode Config
  | [] => return c
  | (key, value) :: rest => do
    let name ← d.keyText key
    match settings.lookup name with
    | none => Decode.fail
    | some s =>
      if seen.contains name then Decode.fail
      setNamed d (name :: seen) (← c.set d s value) rest

/-- Sets the settings in their order. -/
def setInOrder (d : Document) (c : Config) : List (String × Setting) → List Node → Decode Config
  | _, [] => return c
  | [], _ :: _ => Decode.fail
  | (_, s) :: rest, node :: nodes => do setInOrder d (← c.set d s node) rest nodes

def decode (d : Document) : Option Node → Decode Config
  | none => return standard
  | some root => do
    match ← d.resolve root with
    | .mapping entries _ => setNamed d [] standard entries
    | .sequence items _ => setInOrder d standard settings items
    | other => if isVoid other then return standard else Decode.fail

/-- The configuration that a text holds. -/
def ofText? (text : String) : Option Config := do
  if Text.allBlank text.toList then return standard
  let d ← Document.read? text.toList
  d.decode (decode d)

end Config
end AgentDocs
