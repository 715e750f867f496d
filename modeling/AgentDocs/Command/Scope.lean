import AgentDocs.Path.Normal
import AgentDocs.Template.Collected
import AgentDocs.Template.Parameters

/-!
What a command sees of the rendering in which it stands, and what it may have rendered.
-/
namespace AgentDocs
open Template

/-- What all renderings for one template share. -/
structure TemplateScope where
  /-- The template. -/
  source : Path.Placed
  parameters : Parameters
  /-- The docs declared so far; only the main document has them. -/
  docs : Option (List ListedDoc)
  /-- Whether commands are dispatched. -/
  dispatches : Bool
  deriving Repr

structure Scope where
  template : TemplateScope
  root : Path
  /-- The directory of the file that is rendered. -/
  workingDir : Path
  /-- The directory to which the result is written. -/
  targetDir : Path
  deriving Repr

/-- A document has sections of its own; a part adds to those of the document around it. -/
inductive Mode where
  | document
  | part
  deriving DecidableEq, Repr

/-- A file to render. -/
structure Job where
  mode : Mode
  template : TemplateScope
  path : Path
  targetDir : Path
  /-- The text to render, if it is not that of the file. -/
  content : Option String
  deriving Repr

namespace Scope

/-- The file that an argument refers to: a leading slash stands for the root, anything else is
read from the working directory. -/
def resolve (s : Scope) (reference : String) : Path :=
  match reference.toList with
  | '/' :: rest => (s.root.join ⟨String.ofList rest⟩).normal
  | _ => (s.workingDir.join ⟨reference⟩).normal

/-- The way from the target directory to a path. -/
def relative (s : Scope) (target : Path) : String :=
  ((s.targetDir.relativeTo? target).getD target).toSlashed

/-- A link to a path, as agents read it. -/
def link (s : Scope) (target : Path) : String := "@" ++ s.relative target

/-- A link to a file below the root. -/
def linkBelowRoot (s : Scope) (reference : String) : String := s.link (s.root.within reference)

/-- A file as a part of the document. -/
def part (s : Scope) (p : Path) : Job := ⟨.part, s.template, p, s.targetDir, none⟩

/-- A file, or the text given in its place, as a document. -/
def document (s : Scope) (p targetDir : Path) (content : Option String) : Job :=
  ⟨.document, s.template, p, targetDir, content⟩

end Scope
end AgentDocs
