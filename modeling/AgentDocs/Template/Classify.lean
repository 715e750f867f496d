import AgentDocs.Generate.Error
import AgentDocs.Path.Normal
import AgentDocs.Template.HeaderTargets

/-!
Templates. A mapping in the frontmatter that declares no file by a header is read as directives;
otherwise the headers declare the files.
-/
namespace AgentDocs
open Markup

inductive Template.Kind where
  | directives (spec : Spec)
  | headers (headers : List Header)

structure Template where
  source : Path.Placed
  /-- The text without its headers. -/
  body : List Char
  priority : Template.Priority
  kind : Template.Kind

namespace Template

/-- The mapping of the frontmatter, empty if there is none. -/
def dataOf : Except FrontmatterError (Option Frontmatter) → List (String × Json)
  | .ok (some f) => f.data
  | _ => []

/-- The template that headers make of a document, if they declare a file. -/
def ofHeaders (source : Path.Placed) (document : List Char) (priority : Priority) :
    Except GenerateError (Option Template) :=
  match headerBlock? document with
  | none => .ok none
  | some _ => do
    let headed ← (readHeaders document).mapError (.ofHeader source.relative)
    if headed.headers.any fun h => declaresFile (String.ofList h.name) then
      return some ⟨source, headed.body, priority, .headers headed.headers⟩
    else return none

/-- The template that a document is. -/
def classify (source : Path.Placed) (document : List Char) : Except GenerateError Template := do
  let frontmatter := readFrontmatter document
  let data := dataOf frontmatter
  if !data.isEmpty && !data.any fun (key, _) => declaresFile key then
    let spec ← (Spec.read data).mapError (.ofSchema source.relative)
    return ⟨source, stripHeaders document, spec.priority, .directives spec⟩
  match ← ofHeaders source document (lenientPriority data) with
  | some template => return template
  | none =>
    match frontmatter with
    | .error e => .error (.ofFrontmatter source.relative e)
    | .ok _ => .error (.missingFrontmatter source.relative)

end Template
end AgentDocs
