import AgentDocs.Markup.HeaderBlock
import AgentDocs.Yaml.Decode
import AgentDocs.Yaml.Writer

/-!
Frontmatter: a ruled header block that holds a YAML mapping. A blank block and a block that
holds null are empty mappings; a block of another value is refused.
-/
namespace AgentDocs.Markup
open Text

/-- The mapping of a document and the body below it. -/
structure Frontmatter where
  data : List (String × Json)
  body : List Char
  deriving Repr

inductive FrontmatterError where
  | invalidYaml
  | notAMapping (found : String)
  deriving DecidableEq, Repr

def FrontmatterError.message : FrontmatterError → String
  | .invalidYaml => "Invalid frontmatter format: <yaml>"
  | .notAMapping found => "Invalid frontmatter format: expected a mapping, found " ++ found

/-- The mapping that the text of a block holds. -/
def mappingOf (text : List Char) : Except FrontmatterError (List (String × Json)) :=
  if allBlank text then .ok []
  else match Yaml.read? (String.ofList text) with
    | none => .error .invalidYaml
    | some .null => .ok []
    | some (.object members) => .ok members
    | some other => .error (.notAMapping other.kind)

/-- The frontmatter of a document, if it has a ruled block. -/
def readFrontmatter (document : List Char) : Except FrontmatterError (Option Frontmatter) :=
  match headerBlock? document with
  | some ⟨.ruled, lines, body⟩ => do
    let data ← mappingOf (join ['\n'] lines)
    return some ⟨data, body⟩
  | _ => .ok none

/-- A frontmatter block with the given fields in order, and a blank line below it. Without
fields there is no block. -/
def writeFrontmatter (fields : List (String × Json)) : String :=
  let text := trimmedRight (Yaml.write (.object fields))
  if text == "" || text == "\x7b\x7d" then "" else "---\n" ++ text ++ "\n---\n\n"

end AgentDocs.Markup
