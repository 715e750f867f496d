import AgentDocs.Generate.Error
import AgentDocs.Json.Reader
import AgentDocs.Path.Normal
import AgentDocs.Project.Config
import AgentDocs.Store.Basic

/-!
Projects: a root directory and its configuration. A configuration file lies in the root; without
one, any directory is a root. Parameters come from files in the source directory and those around
a template, the deeper ones over the others, and from the configuration and the caller over them.
-/
namespace AgentDocs

structure Project where
  /-- Normal. -/
  root : Path
  /-- The file in which the configuration was found. -/
  configFile : Option Path
  config : Config
  deriving Repr

namespace Project

def standard (root : Path) : Project := ⟨root.normal, none, .standard⟩

/-- The names of configuration files, the preferred one first. -/
def configNames : List String := ["docgen.yml", "docgen.yaml"]

/-- Reads a configuration file. -/
def load (file : Path) : Store.Task GenerateError Project := do
  let text ← (Store.readText file).wrapError .ofStore
  match Config.ofText? text with
  | none => throw (.ofConfig file .malformed)
  | some config =>
    match file.parent? with
    | none => throw (.ofConfig file .noParent)
    | some dir => return ⟨dir.normal, some file, config⟩

/-- The first of the files that is there. -/
def firstFile : List Path → Store.Task GenerateError (Option Path)
  | [] => return none
  | p :: rest => do
    if ← (Store.isFile p).wrapError .ofStore then return some p else firstFile rest

/-- The project of a directory: that of the next configuration file outwards, or the directory
itself without one. -/
def discover (start : Path) : Store.Task GenerateError Project := do
  let start := start.normal
  match ← firstFile (start.ancestors.flatMap fun dir => configNames.map dir.child) with
  | some file => load file
  | none => return standard start

/-- A directory as the root sees it. -/
def resolve (p : Project) (dir : String) : Path := (p.root.join ⟨dir⟩).normal

def sourceDir (p : Project) : Path := p.resolve p.config.sourceDir

def commandsDir (p : Project) : Option Path := p.config.commandsDir.map p.resolve

/-- Where docs are put, below the root. -/
def docsBase (p : Project) : Option String :=
  p.config.docsDir.bind fun dir => ((p.resolve dir).below? p.root).map Path.slashed

end Project

namespace Parameters

def fileName : String := "docs-parameters.json"

/-- The parameters that the members of an object are, if all are strings. -/
def ofMembers? : List (String × Json) → Option (List (String × String))
  | [] => some []
  | (name, .string value) :: rest => (ofMembers? rest).map ((name, value) :: ·)
  | _ => none

def ofText? (text : String) : Option Parameters := do
  match ← Json.readRaw? text with
  | .object members => return ofList (← ofMembers? members)
  | _ => none

/-- The parameters of a file, if it is there. -/
def readFile (path : Path) : Store.Task GenerateError Parameters := do
  if ← (Store.isFile path).wrapError .ofStore then
    let text ← (Store.readText path).wrapError .ofStore
    match ofText? text with
    | some ps => return ps
    | none => throw (.ofParameters path)
  else return []

/-- The directories from the source directory down to another. -/
def chain (sourceDir dir : Path) : List Path :=
  (dir.ancestors.takeWhile fun d => d.isWithin sourceDir).reverse

/-- The parameters for templates in a directory. -/
def load (sourceDir dir : Path) (overrides : Parameters) : Store.Task GenerateError Parameters := do
  let found ← (chain sourceDir dir).foldlM
    (fun (ps : Parameters) d => return ps.update (← readFile (d.child fileName))) []
  return found.update overrides

end Parameters
end AgentDocs
