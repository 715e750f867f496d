import AgentDocs.Command.Builtin
import AgentDocs.Generate.Artifacts
import AgentDocs.Project.Basic
import AgentDocs.Render.Renderer
import AgentDocs.Template.Classify
import AgentDocs.Template.Content
import AgentDocs.Template.Outputs

/-!
A run: templates are found and expanded, mentions of skills and docs are checked, the files are
written, and files of the run before that are no longer made are removed. Nothing is written
before all templates are expanded and all mentions are known.
-/
namespace AgentDocs
open Template

/-- What a run changed, by paths below the root. -/
structure Report where
  written : List String
  deleted : List String
  deriving DecidableEq, Repr

structure Generator where
  project : Project
  classes : ClassIndex
  registry : Registry
  /-- The parameters that the caller gives. -/
  parameters : Parameters

abbrev Generating (α : Type) := Within GenerateError α

namespace Generator

/-- A generator with the builtin commands. -/
def make (project : Project) (classes : ClassIndex) : Generator :=
  ⟨project, classes, .builtin classes, []⟩

def orFail {α : Type} (result : Except GenerateError α) : Generating α := ExceptT.mk (pure result)

/-! ## Finding templates -/

/-- Whether a markdown file is a template: not the reserved file, and no partial one. -/
def isTemplate (reserved : String) (p : Path) : Bool :=
  let name := p.fileName?.getD ""
  name != reserved && name.toList.head? != some '_'

def readTemplate (root p : Path) : Store.Task GenerateError Template := do
  match p.placed? root with
  | none => throw (.pathOutsideRoot p.text p.text)
  | some source =>
    let text ← (Store.readText p).wrapError .ofStore
    ExceptT.mk (pure (classify source text.toList))

/-- The templates in the source directory, in the order of their paths. -/
def discover (project : Project) : Store.Task GenerateError (List Template) := do
  let files ← (Store.listFiles project.sourceDir "*.md").wrapError .ofStore
  (files.filter (isTemplate project.config.reservedFile)).mapM (readTemplate project.root)

/-- The order in which templates are expanded. -/
def inOrder (templates : List Template) : List Template :=
  templates.mergeSort fun a b => !b.priority.precedes a.priority

/-- The place of the first file of a template, where it is known before. -/
def knownTarget? (project : Project) (t : Template) : Option (Path × Path) :=
  let target? := match t.kind with
    | .directives spec => spec.primaryTarget project.root project.docsBase
    | .headers headers => literalTarget? project.root headers
  target?.map (t.source.path, ·)

/-! ## Expanding templates -/

/-- The docs declared so far, each with the template that declares it. -/
abbrev DocsIndex := List (Doc × String)

/-- Declares a doc. No two docs have one target. -/
def claimDoc (docs : DocsIndex) (doc : Doc) (origin : String) : Except GenerateError DocsIndex :=
  match docs.find? fun (other, _) => other.target == doc.target with
  | some (_, first) => .error (.duplicateDocs doc.target first origin)
  | none => .ok (docs ++ [(doc, origin)])

/-- What was made of the templates so far. -/
structure Progress where
  artifacts : Artifacts
  docs : DocsIndex

/-- Notes the skill or doc that a file declares. -/
def declare (origin : String) (docs : DocsIndex) : OutputKind → Generating DocsIndex
  | .skill name => do
    modify fun s => { s with references := s.references.add .skill name }
    return docs
  | .doc doc => do
    let docs ← orFail (claimDoc docs doc origin)
    modify fun s => { s with references := s.references.add .doc doc.target }
    return docs
  | .command | .plain => return docs

/-- Adds one file that a template declares. -/
def addOutput (origin : String) (done : Progress) (output : Output) : Generating Progress := do
  let docs ← declare origin done.docs output.kind
  return ⟨← orFail (done.artifacts.insert origin output.target output.content), docs⟩

/-- The docs that the main document lists. -/
def listedDocs (project : Project) (spec : Spec) (relative : String) (docs : DocsIndex) :
    Except GenerateError (Option (List ListedDoc)) :=
  if spec.main then
    match collect (docs.map (·.1)) project.docsBase with
    | some listed => .ok (some listed)
    | none => .error (.ofTemplate relative .noDirForList)
  else .ok none

/-- Renders the text of a template. -/
def renderBody (renderer : Renderer) (t : Template) (template : TemplateScope)
    (targetDir : Path) : Generating String :=
  Within.wrapError (.ofRender t.source.relative)
    (renderer.render template t.source.path targetDir (some (String.ofList t.body)))

def expandDirectives (g : Generator) (renderer : Renderer) (t : Template) (spec : Spec)
    (parameters : Parameters) (done : Progress) : Generating Progress := do
  let relative := t.source.relative
  let base := g.project.docsBase
  let listed ← orFail (listedDocs g.project spec relative done.docs)
  let template : TemplateScope := ⟨t.source, parameters, listed, !spec.literal⟩
  let body ← renderBody renderer t template (spec.linkDir g.project.root base)
  let content ← Within.onStore
    ((spec.content g.project.root g.classes body).wrapError (.ofTemplate relative))
  let outputs ← orFail ((spec.outputs base content).mapError (.ofTemplate relative))
  outputs.foldlM (addOutput relative) done

/-- The commands that the headers of a template declare, with the directory for them. -/
def commandsFor (project : Project) (t : Template) (headers : List Markup.Header) :
    Except GenerateError (Option (Path × List HeaderCommand)) :=
  match project.commandsDir with
  | none => .ok none
  | some dir =>
    ((headerCommands headers (t.source.path.fileName?.getD "")).map fun commands =>
      some (dir, commands)).mapError (.ofTemplate t.source.relative)

/-- The files to write for a template with headers, given its text. -/
def headerFiles (targets : List Path) (commands : Option (Path × List HeaderCommand))
    (body : String) : List (Path × String) :=
  let plain := targets.map ((·, body))
  match commands with
  | none => plain
  | some (dir, commands) =>
    plain ++ commands.map fun c => (dir.child (Text.dropSlashes c.target), c.content body)

def expandHeaders (g : Generator) (renderer : Renderer) (t : Template)
    (headers : List Markup.Header) (parameters : Parameters) (done : Progress) :
    Generating Progress := do
  let relative := t.source.relative
  let root := g.project.root
  let targets ← Within.onStore ((headerTargets root headers).wrapError (.ofTemplate relative))
  let commands ← orFail (commandsFor g.project t headers)
  let targetDir := ((targets.head?.bind Path.parent?).orElse fun _ => commands.map (·.1)).getD root
  let template : TemplateScope := ⟨t.source, parameters, none, true⟩
  let body ← renderBody renderer t template targetDir
  let artifacts ← (headerFiles targets commands body).foldlM
    (fun (as : Artifacts) (target, content) => orFail (as.insert relative target content))
    done.artifacts
  return { done with artifacts }

def expand (g : Generator) (renderer : Renderer) (overrides : Parameters) (done : Progress)
    (t : Template) : Generating Progress := do
  let sourceDir := g.project.sourceDir
  let dir := t.source.path.parent?.getD sourceDir
  let parameters ← Within.onStore (Parameters.load sourceDir dir overrides)
  match t.kind with
  | .directives spec => expandDirectives g renderer t spec parameters done
  | .headers headers => expandHeaders g renderer t headers parameters done

/-- Checks that all names that were mentioned are produced. -/
def checkReferences : Generating Unit := do
  match (← get).references.unknown? with
  | some m => throw (.unknownReference m)
  | none => return

/-- Adds the files that were imported. -/
def addImported (artifacts : Artifacts) : Generating Artifacts := do
  (← get).imported.foldlM
    (fun (as : Artifacts) f => orFail (as.insert f.origin f.target f.content)) artifacts

/-- All files of a run, in memory. -/
def collectArtifacts (g : Generator) : Generating Artifacts := do
  let templates := inOrder (← Within.onStore (discover g.project))
  let root := g.project.root
  let renderer := (Renderer.make g.registry root).withImportsDir g.project.config.importsDir
  modify fun s => s.withTargets (templates.filterMap (knownTarget? g.project))
  let overrides := g.project.config.parameters.update g.parameters
  let done ← templates.foldlM (expand g renderer overrides) ⟨.empty root, []⟩
  checkReferences
  addImported done.artifacts

/-! ## Writing files -/

/-- Writes the files and the manifest, and removes files of the run before. -/
def writeFiles (root manifestPath : Path) (previous : Manifest) (artifacts : Artifacts) :
    Store.Task GenerateError Report := do
  let written ← artifacts.commit.wrapError .ofStore
  let current := artifacts.manifest
  let deleted ← (removeStale root (previous.stale current)).wrapError .ofStore
  current.save manifestPath
  return ⟨written, deleted⟩

def manifestPath (g : Generator) : Path := g.project.sourceDir.child Manifest.fileName

/-- All that happens before files are written: the manifest of the run before is read, and the
files of this run are made in memory. -/
def gather (g : Generator) : Generating (Manifest × Artifacts) := do
  let sourceDir := g.project.sourceDir
  if !(← Within.access .ofStore (Store.isDir sourceDir)) then throw (.missingSourceDir sourceDir)
  let previous ← Within.onStore (Manifest.load g.manifestPath)
  return (previous, ← collectArtifacts g)

/-- Runs in a session that has just been started. -/
def runIn (g : Generator) : Generating Report := do
  let made ← gather g
  Within.onStore (writeFiles g.project.root g.manifestPath made.1 made.2)

/-- Runs on a store. The lines that commands noted are given in any case. -/
def run (g : Generator) (store : Store) : Except GenerateError Report × Store × List String :=
  let (result, s) := (g.runIn).run (Session.start store)
  (result, s.store, s.journal)

end Generator
end AgentDocs
