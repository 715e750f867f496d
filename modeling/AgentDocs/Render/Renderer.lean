import AgentDocs.Markup.HeaderBlock
import AgentDocs.Markup.Placeholder
import AgentDocs.Render.Imports
import AgentDocs.Render.Session

/-!
Rendering. First the variables of a text are replaced by parameters, then its snippets by what
their commands answer, from the last one to the first. Commands may render other files, as parts
of the document or as documents; a file that is being rendered cannot be rendered again inside.
-/
namespace AgentDocs
open Markup Text

structure Renderer where
  registry : Registry
  /-- Normal. -/
  root : Path
  /-- Where imported files are put. -/
  importsDir : Path

abbrev Rendering (α : Type) := Within RenderError α

namespace Renderer

def make (registry : Registry) (root : Path) : Renderer :=
  ⟨registry, root.normal, root.normal.child "ai-docs/imports"⟩

def withImportsDir (r : Renderer) (dir : String) : Renderer :=
  { r with importsDir := r.root.within dir }

/-- The body of a file without its headers. A file is read once. -/
def body (path : Path) : Rendering (List Char) := do
  match PathMap.get? path (← get).bodies with
  | some text => return text
  | none =>
    let text := stripHeaders (← Within.access .ofStore (Store.readText path)).toList
    modify fun s => { s with bodies := PathMap.insert path text s.bodies }
    return text

/-- What stands for a variable. The name of a command may be one of its snippets, without
arguments; any other name must be a parameter. -/
def valueOf (registry : Registry) (parameters : Parameters) (path : Path) (v : Variable) :
    Except RenderError (Option (List Char)) :=
  match parameters.get? v.name with
  | some value => .ok (some value.toList)
  | none => if registry.has v.name then .ok none else .error (.unresolvedVariable path v.name)

/-- Replaces the variables of a text. -/
def fillVariables (registry : Registry) (parameters : Parameters) (path : Path)
    (text : List Char) : Except RenderError (List Char) :=
  splice Variable.span (valueOf registry parameters path) (variablesIn text) text

/-- What stands for a snippet; one that names no command stays. -/
def dispatch (registry : Registry) (scope : Scope) (path : Path) (s : Snippet) :
    Script RenderError (Option (List Char)) := do
  match registry.find? s.name with
  | none => return none
  | some command =>
    let text ← (command.invoke scope s.arguments).mapError (.ofCommand path s.name)
    return some text.toList

/-- Replaces the variables and then the snippets of a text: the scripts of its commands, those of
the last snippet first. -/
def expand (registry : Registry) (scope : Scope) (path : Path) (text : List Char) :
    Script RenderError (List Char) := do
  let text ← Script.ofExcept (fillVariables registry scope.template.parameters path text)
  if scope.template.dispatches then
    splice Snippet.span (dispatch registry scope path) (snippetsIn text) text
  else return text

/-! ## Running scripts -/

/-- The path of the result of an imported file, and whether the file is still to be rendered: one
that has no such path yet is given one. -/
def placeImport (r : Renderer) (source : Path) : Within CommandError (Path × Bool) := do
  if !(← Within.access .ofStore (Store.isFile source)) then throw (.missingFile source)
  match PathMap.get? source (← get).targets with
  | some target => return (target, false)
  | none =>
    let target := Imports.freeTarget ((← get).targets.map (·.2)) r.importsDir source
    modify fun s => { s with targets := PathMap.insert source target s.targets }
    return (target, true)

def importJob (r : Renderer) (template : TemplateScope) (source : Path) : Job :=
  ⟨.document, template, source, r.importsDir, none⟩

/-- Renders a file that is imported, after its result was placed, so that a file imported again
inside refers to it. -/
def importTarget (r : Renderer) (inner : Job → Rendering String) (template : TemplateScope)
    (source : Path) : Within CommandError Path := do
  let placed ← placeImport r source
  if placed.2 then
    let content ← Within.wrapError .ofRender (inner (r.importJob template source))
    modify fun s =>
      { s with imported := s.imported ++ [⟨placed.1, content, template.source.relative⟩] }
    return placed.1
  else return placed.1

/-- Does one action; `inner` renders other files. -/
def perform (r : Renderer) (inner : Job → Rendering String) :
    (a : Action) → Session → a.Answer × Session
  | .ask question, s => Within.onStore (Store.answer question) s
  | .render job, s => inner job s
  | .importFile template p, s => importTarget r inner template p s
  | .keep command e, s => ((), s.keep command e)
  | .kept command, s => (s.entriesOf command, s)
  | .mention m, s => ((), { s with references := s.references.mention m })
  | .note line, s => ((), s.note [line])

/-- Does the actions of a script. -/
def follow (r : Renderer) (inner : Job → Rendering String) {ε α : Type} :
    Script ε α → Within ε α
  | .done a => pure a
  | .fail e => throw e
  | .act a next => fun s =>
    let (answer, s) := perform r inner a s
    follow r inner (next answer) s

/-- Lets the commands complete a document, in the order of their registration. -/
def finishDocument (registry : Registry) (text : String) : Rendering String := fun s =>
  (.ok (registry.foldl (fun text c => c.finish (s.entriesOf c.name) text) text),
    s.note (Session.notesOf .finishes registry))

/-- The text that a file has for a rendering: the given one, or its own without headers. -/
def sourceOf (job : Job) : Rendering (List Char) :=
  match job.content with
  | some content => pure content.toList
  | none => body job.path.normal

/-- What the commands of a file see. -/
def scopeOf (r : Renderer) (job : Job) : Scope :=
  ⟨job.template, r.root, job.path.normal.parent?.getD r.root, job.targetDir.normal⟩

/-- Replaces the variables and snippets of a text. -/
def expandText (r : Renderer) (inner : Job → Rendering String) (job : Job) (text : List Char) :
    Rendering String := do
  return String.ofList
    (← follow r inner (expand r.registry (r.scopeOf job) job.path.normal text))

/-- Renders the text of a file, as a part or as a document of its own. -/
def renderText (r : Renderer) (inner : Job → Rendering String) (job : Job) (text : List Char) :
    Rendering String :=
  match job.mode with
  | .part => expandText r inner job text
  | .document =>
    Within.between (Session.openDocument r.registry) (Session.closeDocument r.registry) do
      finishDocument r.registry (← expandText r inner job text)

/-- Renders a file that is not being rendered; `inner` renders the files inside. -/
def renderOpen (r : Renderer) (inner : Job → Rendering String) (job : Job) : Rendering String := do
  let text ← sourceOf job
  return trimmed (← renderText r inner job text)

/-- Renders a file, at most `depth` files within one another. -/
def renderWithin (r : Renderer) : Nat → Job → Rendering String
  | 0, job => do
    let path := job.path.normal
    if (← get).pending.any path.same then throw (.circularInclusion path)
    throw (.tooDeep path)
  | depth + 1, job => do
    let path := job.path.normal
    if (← get).pending.any path.same then throw (.circularInclusion path)
    Within.between (Session.enter path) Session.leave (renderOpen r (renderWithin r depth) job)

/-- How deeply texts that are not stored may be rendered within one another. -/
def unstoredDepth : Nat := 1024

/-- A depth that stored files cannot exceed: no two of them are the same file, and the innermost
need not be stored. -/
def depthFor (store : Store) : Nat := store.files.length + 2 + unstoredDepth

/-- Renders a document. -/
def render (r : Renderer) (template : TemplateScope) (path targetDir : Path)
    (content : Option String) : Rendering String := do
  renderWithin r (depthFor (← get).store) ⟨.document, template, path, targetDir, content⟩

end Renderer
end AgentDocs
