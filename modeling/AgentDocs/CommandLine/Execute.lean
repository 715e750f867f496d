import AgentDocs.CommandLine.Causes
import AgentDocs.CommandLine.Options
import AgentDocs.Generate.Run

/-! What the command line does with a store, what it prints, and its exit code. -/
namespace AgentDocs.CommandLine
open Text

structure Outcome where
  code : Nat
  output : String
  errors : String
  deriving DecidableEq, Repr

def programHelp : String := joined "\n"
  ["Generate agent skills, docs and commands from markdown templates", "",
    "Usage: docgen [OPTIONS] <COMMAND>", "",
    "Commands:",
    "  generate  Expand every template and write the generated files",
    "  help      Print this message or the help of the given subcommand(s)", "",
    "Options:",
    "  -v, --verbose  Show debug output",
    "  -q, --quiet    Suppress console output",
    "  -h, --help     Print help",
    "  -V, --version  Print version", ""]

def generateHelp : String := joined "\n"
  ["Expand every template and write the generated files", "",
    "Usage: docgen generate [OPTIONS]", "",
    "Options:",
    "      --root <ROOT>                                Directory to start project discovery from (defaults to the current directory)",
    "      --source <SOURCE_DIR>                        Template directory, relative to the root",
    "      --docs-dir <DOCS_DIR>                        Base directory for docs targets, relative to the root",
    "      --claude-commands-dir <CLAUDE_COMMANDS_DIR>  Directory for claude-command outputs, relative to the root",
    "  -P, --param <PARAMS>                             Template parameter (KEY=VALUE)",
    "  -v, --verbose                                    Show debug output",
    "  -q, --quiet                                      Suppress console output",
    "  -h, --help                                       Print help", ""]

def helpText : Level → String
  | .program => programHelp
  | .generate => generateHelp

/-- What is wrong with a parameter. -/
inductive ParamFault where
  | noValue (param : String)
  | emptyKey (param : String)
  deriving DecidableEq, Repr

def ParamFault.message : ParamFault → String
  | noValue param => "Invalid parameter \"" ++ param ++ "\": expected KEY=VALUE"
  | emptyKey param => "Invalid parameter \"" ++ param ++ "\": empty key"

def readParam (param : String) : Except ParamFault (String × String) :=
  match splitOnce '=' param.toList with
  | none => .error (.noValue param)
  | some (key, value) =>
    let key := String.ofList (trim key)
    if key.isEmpty then .error (.emptyKey param) else .ok (key, String.ofList value)

/-- The parameters on the command line; of two with one key the later counts. -/
def readParams (params : List String) : Except ParamFault Parameters :=
  (params.mapM readParam).map .ofList

/-- The values of an option in the order of the command line. -/
def valuesOf (name : Name) (found : Found) : List String :=
  ((found.filter (·.1 == name)).map (·.2)).reverse

/-- Options override the configuration. -/
def override (found : Found) (c : Config) : Config :=
  { c with
    sourceDir := ((valuesOf .source found).head?).getD c.sourceDir
    docsDir := ((valuesOf .docsDir found).head?).orElse fun _ => c.docsDir
    commandsDir := ((valuesOf .commandsDir found).head?).orElse fun _ => c.commandsDir }

def failed (message : String) (causes : List String) : Outcome := ⟨1, "", errorText message causes⟩

def summary (r : Report) : String :=
  "Generated " ++ toString r.written.length ++ " file(s), removed " ++ toString r.deleted.length
    ++ " stale file(s)\n"

/-- Generates the files of the project around the start directory. -/
def generate (found : Found) (current : Path) (store : Store) : Outcome × Store :=
  let start : Path := match valuesOf .root found with
    | root :: _ => ⟨root⟩
    | [] => current
  match (Project.discover start).run store with
  | (.error e, store) =>
    (failed ("Failed to load project from " ++ start.text) (e.message :: e.causes), store)
  | (.ok project, store) =>
    match readParams (valuesOf .param found) with
    | .error fault => (failed fault.message [], store)
    | .ok parameters =>
      let project := { project with config := override found project.config }
      let generator := { Generator.make project .empty with parameters }
      match generator.run store with
      | (.error e, store, _) => (failed "Generation failed" (e.message :: e.causes), store)
      | (.ok report, store, _) =>
        let isQuiet := found.any (·.1 == .quiet)
        (⟨0, if isQuiet then "" else summary report, ""⟩, store)

/-- Runs a command line in a current directory. -/
def execute (arguments : List String) (current : Path) (store : Store) : Outcome × Store :=
  match read arguments with
  | .error e => (⟨2, "", "error: " ++ e.message ++ "\n"⟩, store)
  | .ok (.help level) => (⟨0, helpText level, ""⟩, store)
  | .ok .version => (⟨0, "docgen 0.1.0\n", ""⟩, store)
  | .ok (.generate found) => generate found current store

end AgentDocs.CommandLine
