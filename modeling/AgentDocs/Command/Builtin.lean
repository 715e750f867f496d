import AgentDocs.Command.Registry

/-!
The commands that every template can use: signatures and sources of classes, parts of other
files, links to imported files and packages, and names of namespaces, skills and docs.
-/
namespace AgentDocs
open Template Text

namespace Command

/-- The code between fences of three backticks, blanks around it aside. -/
def fenced (language code : String) : String :=
  "\x60\x60\x60" ++ language ++ "\n" ++ trimmed code ++ "\n\x60\x60\x60"

/-- A text between backticks. -/
def ticked (text : String) : String := "\x60" ++ text ++ "\x60"

/-! ## Classes -/

/-- The signature of a class under a line with its name. -/
def describeClass (classes : ClassIndex) (name : String) (visibilities : Option String) :
    CommandScript String := do
  let visibility := Visibility.ofText (visibilities.getD "")
  let signature ← CommandScript.ofClass (classes.signature name (.ofVisibility visibility))
  return "Code snippet of **" ++ name ++ "**:\n" ++ fenced classes.language signature

def dump (classes : ClassIndex) : Command where
  name := "dump"
  invoke _ args := do
    Script.ofExcept (expectArguments "dump" args 1 2)
    describeClass classes (args.getD 0 "") args[1]?

/-- The last text of each key from the end on: entries are kept from the last placeholder to the
first, so this is the order of the document. -/
def sourceOrder (entries : List Entry) : List String :=
  go [] entries.reverse
where
  go (seen : List String) : List Entry → List String
    | [] => []
    | e :: rest => if seen.contains e.key then go seen rest else e.text :: go (e.key :: seen) rest

/-- Adds the texts of the entries below a heading. -/
def addSection (heading description separator : String) (entries : List Entry) (text : String) :
    String :=
  if entries.isEmpty then text
  else text ++ "\n\n## " ++ heading ++ "\n" ++ description ++ "\n\n"
    ++ joined separator (sourceOrder entries)

def contextDescription : String :=
  "Below are short PHP code snippets. These snippets contain the basic structure of important classes, "
    ++ "including methods, properties, parameters, namespace, class name, and PHPDoc comments."

/-- Collects signatures of classes for a section at the end of the document. -/
def context (classes : ClassIndex) (description : String) : Command where
  name := "@context"
  invoke _ args := do
    Script.ofExcept (expectArguments "@context" args 1 2)
    let name := args.getD 0 ""
    let text ← describeClass classes name args[1]?
    CommandScript.keep "@context" ⟨name, text⟩
    return ""
  finish := addSection "Context" description "\n\n"

def classSource (classes : ClassIndex) (name : String) : CommandScript String := do
  let path ← CommandScript.ofClass (classes.sourceFile name)
  CommandScript.readText path

def print (classes : ClassIndex) : Command where
  name := "print"
  invoke _ args := do
    Script.ofExcept (expectArguments "print" args 1 1)
    classSource classes (args.getD 0 "")

def printCodeBlock (classes : ClassIndex) : Command where
  name := "print-code-block"
  invoke _ args := do
    Script.ofExcept (expectArguments "print-code-block" args 1 1)
    let source ← classSource classes (args.getD 0 "")
    return fenced classes.language source

def className (classes : ClassIndex) : Command where
  name := "class-name"
  invoke _ args := do
    Script.ofExcept (expectArguments "class-name" args 1 1)
    let name := args.getD 0 ""
    if classes.has name then return ticked name else Script.fail (.ofClass (.unknown name))

/-! ## Packages -/

def packageDescription : String :=
  "Below are documentations of 3rd party libraries for further knowledge. "
    ++ "List contains BaseNamespace - documentation file"

/-- The files that may document a package, the preferred one first. -/
def packageFiles : List String := ["CLAUDE.md", "AGENTS.md", "README.md", "readme.md"]

/-- The first of the files that is there, by its place below the root. -/
def firstFile (scope : Scope) : List String → CommandScript (Option String)
  | [] => pure none
  | relative :: rest => do
    if ← CommandScript.isFile (scope.root.child relative) then return some relative
    else firstFile scope rest

/-- Collects links to the documentation of packages for a section at the end of the document. -/
def package (description : String) : Command where
  name := "@package"
  invoke scope args := do
    Script.ofExcept (expectArguments "@package" args 2 2)
    let package := trimSlashes (args.getD 0 "")
    let files := packageFiles.map fun file => "vendor/" ++ package ++ "/" ++ file
    match ← firstFile scope files with
    | none => return ""
    | some relative =>
      let text := "- " ++ args.getD 1 "" ++ " - " ++ scope.linkBelowRoot relative
      CommandScript.keep "@package" ⟨package, text⟩
      return ""
  finish := addSection "Documentations" description "\n"

/-! ## Files -/

/-- A link to a file that is imported. -/
def importLink (scope : Scope) (reference : String) : CommandScript String :=
  return scope.link (← CommandScript.importFile scope (scope.resolve reference))

def importFile : Command where
  name := "@import"
  invoke scope args := do
    Script.ofExcept (expectArguments "@import" args 1 1)
    importLink scope (args.getD 0 "")

/-- The file that an argument refers to, which must be there. -/
def existingFile (scope : Scope) (reference : String) : CommandScript Path := do
  let path := scope.resolve reference
  if ← CommandScript.isFile path then return path else Script.fail (.missingFile path)

def includeFile : Command where
  name := "include"
  invoke scope args := do
    Script.ofExcept (expectArguments "include" args 1 1)
    let path ← existingFile scope (args.getD 0 "")
    CommandScript.render (scope.part path)

/-- Includes a file where a document mentions it first in the order of dispatch. -/
def includeOnce : Command where
  name := "include-once"
  invoke scope args := do
    Script.ofExcept (expectArguments "include-once" args 1 1)
    let path ← existingFile scope (args.getD 0 "")
    let seen ← CommandScript.kept "include-once"
    if seen.any fun e => path.same ⟨e.key⟩ then return ""
    CommandScript.keep "include-once" ⟨path.text, ""⟩
    CommandScript.render (scope.part path)

/-! ## Names -/

/-- A namespace: the arguments at their places in a pattern. -/
def namespaceName (name : String) (count : Nat) (pattern : List String → String) : Command where
  name := name
  invoke _ args := do
    Script.ofExcept (expectArguments name args count count)
    return ticked (pattern args)

def moduleNamespace : Command :=
  namespaceName "module-namespace" 1 fun args => "Module\\%ModuleName%\\" ++ args.getD 0 ""

def submoduleNamespace : Command :=
  namespaceName "submodule-namespace" 1 fun args =>
    "Module\\%ModuleName%\\%SubmoduleName%\\" ++ args.getD 0 ""

def testModuleNamespace : Command :=
  namespaceName "test-module-namespace" 2 fun args =>
    "Tests\\" ++ args.getD 0 "" ++ "\\Module\\%ModuleName%\\" ++ args.getD 1 ""

def testSubmoduleNamespace : Command :=
  namespaceName "test-submodule-namespace" 3 fun args =>
    "Tests\\" ++ args.getD 0 "" ++ "Module\\%ModuleName%\\" ++ args.getD 1 ""
      ++ "\\%SubmoduleName%\\" ++ args.getD 2 ""

/-- A mention of a skill or doc, which must have a name. -/
def reference (name : String) (kind : ReferenceKind) (what : String) : Command where
  name := name
  invoke scope args := do
    Script.ofExcept (expectArguments name args 1 1)
    let mentioned := args.getD 0 ""
    if mentioned.isEmpty then
      Script.fail (.invalid name ("expects non-empty " ++ what ++ " as argument"))
    else
      CommandScript.mention scope kind mentioned
      return ticked mentioned

def skillReference : Command := reference "skill-reference" .skill "skill name"

def docsReference : Command := reference "docs-reference" .doc "doc path"

/-- A line of the list of docs. -/
def docLine (doc : ListedDoc) (number : Nat) : String :=
  let name := (fields '/' doc.path).getLast?.getD doc.path
  toString number ++ ". [" ++ name ++ "](" ++ doc.path ++ ") - " ++ doc.description

def docsList : Command where
  name := "docs-list"
  invoke scope args := do
    Script.ofExcept (expectArguments "docs-list" args 0 0)
    match scope.template.docs with
    | none =>
      Script.fail (.invalid "docs-list" "can be used only in the main documentation file")
    | some docs => return joined "\n" ((docs.zipIdx 1).map fun (doc, i) => docLine doc i)

end Command

/-- All of the commands above. -/
def Registry.builtin (classes : ClassIndex) : Registry :=
  [Command.dump classes, Command.context classes Command.contextDescription,
    Command.package Command.packageDescription, Command.importFile, Command.includeFile,
    Command.includeOnce, Command.print classes, Command.printCodeBlock classes,
    Command.className classes, Command.submoduleNamespace, Command.moduleNamespace,
    Command.testModuleNamespace, Command.testSubmoduleNamespace, Command.skillReference,
    Command.docsReference, Command.docsList]

end AgentDocs
