import AgentDocs.Markup.Header
import AgentDocs.Path.Normal
import AgentDocs.Store.Basic
import AgentDocs.Template.Fault

/-!
Templates that declare their files by headers. Each `target` is a file, or a file in each of the
directories that stand for its last `*`; commands have a target of their own and a prompt that
comes before the text.
-/
namespace AgentDocs.Template
open Markup Text

def targetName : String := "target"

def commandName : String := "claude-command"

def commandTargetName : String := "claude-command-target"

def commandPromptName : String := "claude-command-prompt"

/-- Whether a header declares a file. -/
def declaresFile (name : String) : Bool :=
  name == targetName || beginsWith commandName.toList name.toList

/-- The values of all headers with a name. -/
def values (name : String) (headers : List Header) : List String :=
  (valuesOf name.toList headers).map String.ofList

/-- The first target, unless it has a `*`. -/
def literalTarget? (root : Path) (headers : List Header) : Option Path :=
  match values targetName headers with
  | [] => none
  | value :: _ => if value.toList.contains '*' then none else some (root.within value)

/-- The files in directories that stand for a `*` between two texts. -/
def spreadTargets (root : Path) (before behind : String) : Store.Task Fault (List Path) := do
  let dir := (root.join ⟨before⟩).normal
  if ← (Store.isDir dir).wrapError .ofStore then
    let dirs ← (Store.listDirs dir "*").wrapError .ofStore
    return dirs.map fun d => (Path.mk (d.text ++ behind)).normal
  else return []

/-- The files that the value of one target stands for. -/
def targetsOf (root : Path) (value : String) : Store.Task Fault (List Path) :=
  let value := dropSlashes value
  match splitLast '*' value.toList with
  | none => return [(root.join ⟨value⟩).normal]
  | some (before, behind) => spreadTargets root (String.ofList before) (String.ofList behind)

/-- The files of all targets, in the order of the headers. -/
def headerTargets (root : Path) (headers : List Header) : Store.Task Fault (List Path) := do
  return (← (values targetName headers).mapM (targetsOf root)).flatten

/-- A file for a command: its place in the directory for commands, and the prompt. -/
structure HeaderCommand where
  target : String
  prompt : String
  deriving DecidableEq, Repr

/-- The file: the prompt and then the text, blanks around them aside. -/
def HeaderCommand.content (c : HeaderCommand) (body : String) : String :=
  trimmed (c.prompt ++ "\n\n" ++ body) ++ "\n"

/-- The parts of a text around the first `--`. -/
def splitDashes : List Char → Option (List Char × List Char)
  | '-' :: '-' :: rest => some ([], rest)
  | c :: rest => (splitDashes rest).map fun (a, b) => (c :: a, b)
  | [] => none

/-- The command that one header declares by itself. -/
def inlineCommand (value : String) : Except Fault HeaderCommand :=
  match splitDashes value.toList with
  | some (target, prompt) => .ok ⟨String.ofList (trim target), String.ofList (trim prompt)⟩
  | none => .error (.commandWithoutPrompt value)

/-- What headers say about commands: the commands they declare by themselves, and the targets and
prompts that stand on their own. -/
structure CommandHeaders where
  commands : List HeaderCommand
  targets : List String
  prompts : List String
  deriving DecidableEq, Repr

/-- Takes in one header. -/
def CommandHeaders.add (found : CommandHeaders) (h : Header) : Except Fault CommandHeaders := do
  let value := String.ofList h.value
  if h.name == commandTargetName.toList then
    return { found with targets := found.targets ++ [value] }
  else if h.name == commandPromptName.toList then
    return { found with prompts := found.prompts ++ [value] }
  else if h.name == commandName.toList then
    let command ← inlineCommand value
    return { found with commands := found.commands ++ [command] }
  else return found

/-- All commands. Targets share one prompt; a prompt without targets has the name of the template for
its target. -/
def CommandHeaders.all (found : CommandHeaders) (fileName : String) :
    Except Fault (List HeaderCommand) :=
  match found.prompts with
  | _ :: _ :: _ => .error .severalPrompts
  | [] => if found.targets.isEmpty then return found.commands else .error .promptRequired
  | [prompt] =>
    let targets := if found.targets.isEmpty then [fileName] else found.targets
    return found.commands ++ targets.map (⟨·, prompt⟩)

/-- The commands that headers declare. -/
def headerCommands (headers : List Header) (fileName : String) :
    Except Fault (List HeaderCommand) := do
  let found ← headers.foldlM CommandHeaders.add ⟨[], [], []⟩
  found.all fileName

end AgentDocs.Template
