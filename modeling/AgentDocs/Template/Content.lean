import AgentDocs.Path.Normal
import AgentDocs.Store.Basic
import AgentDocs.Template.Fault
import AgentDocs.Text.Fence
import AgentDocs.Text.LowerCase

/-! The sections that a template adds to its text: signatures of classes, and examples. -/
namespace AgentDocs.Template
open Text

/-- The language of example files with an extension. -/
def exampleLanguage? : String → Option String
  | "php" => some "php"
  | "js" => some "javascript"
  | "ts" => some "typescript"
  | "md" => some "markdown"
  | "tsp" => some "typespec"
  | "rs" => some "rust"
  | "py" => some "python"
  | "json" => some "json"
  | "yaml" | "yml" => some "yaml"
  | "toml" => some "toml"
  | "sh" => some "bash"
  | _ => none

def signatureBlock (classes : ClassIndex) (entry : ApiEntry) : Except Fault String :=
  ((classes.signature entry.className (.ofVisibility entry.visibility)).map
    (fenced classes.language)).mapError .ofClass

/-- The section with the signatures of classes. -/
def apiSection (classes : ClassIndex) (entries : List ApiEntry) : Except Fault String := do
  let blocks ← entries.mapM (signatureBlock classes)
  return "\n\n## Api Reference\n\nThe following short code snippets demonstrate the API:\n\n"
    ++ joined "\n\n" blocks

/-- Checks that an example has all texts that must occur in it. -/
def checkTexts (entry : ExampleEntry) (example_ : String) : Except Fault Unit :=
  match entry.contains.find? fun text => !Text.contains example_ text with
  | some text => .error (.missingText entry.source text)
  | none => .ok ()

def ofExcept {α : Type} (result : Except Fault α) : Store.Task Fault α := ExceptT.mk (pure result)

/-- The file that declares a class, as an example. -/
def classExample (classes : ClassIndex) (entry : ExampleEntry) (name : String) :
    Store.Task Fault String := do
  let path ← ofExcept ((classes.sourceFile name).mapError .ofClass)
  let text ← (Store.readText path).wrapError fun _ => .unreadableClass name
  ofExcept (checkTexts entry text)
  return fenced classes.language text

/-- A text as an example in the language of files with an extension. -/
def exampleIn (entry : ExampleEntry) (extension text : String) : Except Fault String :=
  match exampleLanguage? extension with
  | none => .error (.unsupportedExtension extension)
  | some language => do
    checkTexts entry text
    return fenced language text

/-- A file below the root as an example. Its extension tells the language. -/
def fileExample (root : Path) (entry : ExampleEntry) (reference : String) :
    Store.Task Fault String := do
  let path := root.within reference
  let unreadable (_ : Store.Error) : Fault := .unreadableExample reference
  if ← (Store.isFile path).wrapError unreadable then
    let text ← (Store.readText path).wrapError unreadable
    ofExcept (exampleIn entry (lowered (path.extension?.getD "")) text)
  else throw (.unreadableExample reference)

def exampleBlock (root : Path) (classes : ClassIndex) (entry : ExampleEntry) :
    Store.Task Fault String :=
  match entry.source with
  | .className name => classExample classes entry name
  | .file reference => fileExample root entry reference

/-- The section with examples. -/
def examplesSection (root : Path) (classes : ClassIndex) (entries : List ExampleEntry) :
    Store.Task Fault String := do
  let heading := if entries.length = 1 then "Example" else "Examples"
  let blocks ← entries.mapM (exampleBlock root classes)
  return "\n\n## " ++ heading ++ "\n\n" ++ joined "\n\n" blocks

def withApi (classes : ClassIndex) (entries : List ApiEntry) (text : String) :
    Except Fault String :=
  if entries.isEmpty then .ok text else do return trimmed (text ++ (← apiSection classes entries))

def withExamples (root : Path) (classes : ClassIndex) (entries : List ExampleEntry)
    (text : String) : Store.Task Fault String :=
  if entries.isEmpty then pure text
  else do return trimmed (text ++ (← examplesSection root classes entries))

/-- A text with the sections that a template declares. -/
def Spec.content (spec : Spec) (root : Path) (classes : ClassIndex) (body : String) :
    Store.Task Fault String := do
  let text ← ofExcept (withApi classes spec.api (trimmed body))
  withExamples root classes spec.examples text

end AgentDocs.Template
