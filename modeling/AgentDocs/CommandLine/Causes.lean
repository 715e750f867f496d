import AgentDocs.Generate.Error

/-! The chain of causes of an error, as it is printed below the error. -/
namespace AgentDocs

/-- The messages of the causes, from the outside in. -/
def Store.Error.causes : Store.Error → List String
  | .io _ fault => [fault.message]
  | _ => []

def CommandError.causes : CommandError → List String
  | .ofClass error => [error.message]
  | .ofStore error => error.message :: error.causes
  | _ => []

def RenderError.causes : RenderError → List String
  | .ofCommand _ _ error => error.message :: error.causes
  | .ofStore error => error.message :: error.causes
  | _ => []

def Markup.FrontmatterError.causes : Markup.FrontmatterError → List String
  | .invalidYaml => ["<yaml>"]
  | .notAMapping _ => []

def GenerateError.causes : GenerateError → List String
  | .ofFrontmatter _ error => error.message :: error.causes
  | .ofHeader _ error => [error.message]
  | .ofRender _ error => error.message :: error.causes
  | .ofStore error => error.message :: error.causes
  | _ => []

namespace CommandLine
open Text

/-- A text behind a mark, its further lines indented. -/
def indented (mark indent text : String) : String := mark ++ joined ("\n" ++ indent) (fields '\n' text)

/-- A number right-aligned in five columns. -/
def numbered (n : Nat) : String :=
  let digits := toString n
  String.ofList (List.replicate (5 - digits.length) ' ') ++ digits ++ ": "

/-- An error and its causes; more than one cause is numbered. -/
def errorText (message : String) (causes : List String) : String :=
  "Error: " ++ message ++ (match causes with
    | [] => ""
    | [cause] => "\n\nCaused by:\n" ++ indented "    " "    " cause
    | _ => "\n\nCaused by:\n"
      ++ joined "\n" (causes.zipIdx.map fun (cause, i) => indented (numbered i) "       " cause))
    ++ "\n"

end CommandLine
end AgentDocs
