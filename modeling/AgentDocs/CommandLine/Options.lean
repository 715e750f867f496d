import AgentDocs.Text.Fields

/-!
The options of the command line. Options are long or short, short flags may share a hyphen, and a
value follows as the next argument, behind `=`, or right behind a short option.
-/
namespace AgentDocs.CommandLine
open Text

inductive Name where
  | verbose
  | quiet
  | help
  | version
  | root
  | source
  | docsDir
  | commandsDir
  | param
  deriving DecidableEq, Repr

def Name.takesValue : Name → Bool
  | verbose | quiet | help | version => false
  | _ => true

def Name.long : Name → String
  | verbose => "verbose"
  | quiet => "quiet"
  | help => "help"
  | version => "version"
  | root => "root"
  | source => "source"
  | docsDir => "docs-dir"
  | commandsDir => "claude-commands-dir"
  | param => "param"

def Name.short? : Name → Option Char
  | verbose => some 'v'
  | quiet => some 'q'
  | help => some 'h'
  | version => some 'V'
  | param => some 'P'
  | _ => none

/-- Options stand before the command or behind it. -/
inductive Level where
  | program
  | generate
  deriving DecidableEq, Repr

def Level.names : Level → List Name
  | program => [.verbose, .quiet, .help, .version]
  | generate => [.root, .source, .docsDir, .commandsDir, .param, .verbose, .quiet, .help]

inductive UsageError where
  | unexpected (argument : String)
  | missingValue (name : Name)
  | superfluousValue (name : Name)
  | repeated (name : Name)
  | verboseAndQuiet
  | missingCommand
  | unknownCommand (name : String)
  deriving DecidableEq, Repr

def UsageError.message : UsageError → String
  | unexpected argument => "unexpected argument '" ++ argument ++ "' found"
  | missingValue name => "a value is required for '--" ++ name.long ++ "' but none was supplied"
  | superfluousValue name => "unexpected value for '--" ++ name.long ++ "' found"
  | repeated name => "the argument '--" ++ name.long ++ "' cannot be used multiple times"
  | verboseAndQuiet => "the argument '--verbose' cannot be used with '--quiet'"
  | missingCommand => "a command is required but none was provided"
  | unknownCommand name => "unrecognized command '" ++ name ++ "'"

/-- The options found so far, last first; flags have an empty value. -/
abbrev Found := List (Name × String)

/-- What a command line asks for. -/
inductive Request where
  | help (level : Level)
  | version
  | generate (found : Found)
  deriving Repr

/-- Adds an option. All but parameters are given once, and a root must not be empty. -/
def add (name : Name) (value : String) (found : Found) : Except UsageError Found :=
  if name ≠ .param ∧ found.any (·.1 == name) then .error (.repeated name)
  else if name = .root ∧ value.isEmpty then .error (.missingValue name)
  else .ok ((name, value) :: found)

/-- How the options of a level end. -/
inductive Stop where
  /-- At a flag that asks for a text. -/
  | asked (request : Request)
  /-- At the first argument that is no option. -/
  | word (word : String) (rest : List String)
  | finished

/-- A step over short options. -/
inductive Short where
  | flags (found : Found)
  | asked (request : Request)
  /-- An option whose value is the next argument. -/
  | pending (name : Name) (found : Found)

/-- The request of a flag that asks for a text. -/
def Name.request? (level : Level) : Name → Option Request
  | help => some (.help level)
  | version => some .version
  | _ => none

/-- Short options behind one hyphen. -/
def shorts (level : Level) (found : Found) : List Char → Except UsageError Short
  | [] => .ok (.flags found)
  | c :: rest =>
    match level.names.find? (·.short? == some c) with
    | none => .error (.unexpected (String.ofList ['-', c]))
    | some name =>
      if name.takesValue then
        match rest with
        | [] => .ok (.pending name found)
        | '=' :: value | value => (add name (String.ofList value) found).map .flags
      else match name.request? level with
        | some request => .ok (.asked request)
        | none => do shorts level (← add name "" found) rest

/-- Whether an argument is an option and no value. -/
def isOption (argument : String) : Bool :=
  match argument.toList with
  | '-' :: _ :: _ => true
  | _ => false

/-- A long option and the value behind its `=`. -/
def long (level : Level) (text : List Char) : Except UsageError (Name × Option String) :=
  let (name, value) := match splitOnce '=' text with
    | some (name, value) => (name, some (String.ofList value))
    | none => (text, none)
  match level.names.find? (·.long == String.ofList name) with
  | some name => .ok (name, value)
  | none => .error (.unexpected ("--" ++ String.ofList name))

/-- Reads the options of a level. -/
def scan (level : Level) (found : Found) (arguments : List String) :
    Except UsageError (Stop × Found) :=
  match arguments with
  | [] => .ok (.finished, found)
  | argument :: rest =>
    let takeValue (name : Name) (found : Found) : Except UsageError (Stop × Found) :=
      match rest with
      | value :: rest =>
        if isOption value then .error (.missingValue name)
        else do scan level (← add name value found) rest
      | [] => .error (.missingValue name)
    match argument.toList with
    | ['-', '-'] => match rest with
      | [] => .ok (.finished, found)
      | extra :: _ => .error (.unexpected extra)
    | '-' :: '-' :: text => do
      match ← long level text with
      | (name, some value) =>
        if name.takesValue then scan level (← add name value found) rest
        else .error (.superfluousValue name)
      | (name, none) =>
        if name.takesValue then takeValue name found
        else match name.request? level with
          | some request => return (.asked request, found)
          | none => scan level (← add name "" found) rest
    | '-' :: c :: text => do
      match ← shorts level found (c :: text) with
      | .flags found => scan level found rest
      | .asked request => return (.asked request, found)
      | .pending name found => takeValue name found
    | _ => .ok (.word argument rest, found)
termination_by arguments.length

/-- Checks that options of one level go together. -/
def checkTogether (found : Found) : Except UsageError Unit :=
  if found.any (·.1 == .verbose) ∧ found.any (·.1 == .quiet) then .error .verboseAndQuiet else .ok ()

/-- The options behind the command. -/
def readGenerate (arguments : List String) : Except UsageError Request := do
  match ← scan .generate [] arguments with
  | (.asked request, _) => return request
  | (.word argument _, _) => .error (.unexpected argument)
  | (.finished, found) =>
    checkTogether found
    return .generate found

/-- The commands whose help is asked for. -/
def readHelp : List String → Except UsageError Request
  | [] | ["help"] => .ok (.help .program)
  | ["generate"] => .ok (.help .generate)
  | "generate" :: name :: _ | "help" :: name :: _ | name :: _ => .error (.unknownCommand name)

/-- What a command line asks for. -/
def read (arguments : List String) : Except UsageError Request := do
  match ← scan .program [] arguments with
  | (.asked request, _) => return request
  | (.finished, _) => .error .missingCommand
  | (.word "help" rest, _) => readHelp rest
  | (.word "generate" rest, outer) =>
    match ← readGenerate rest with
    | .generate found =>
      checkTogether outer
      return .generate (found ++ outer)
    | request => return request
  | (.word name _, _) => .error (.unknownCommand name)

end AgentDocs.CommandLine
