import AgentDocs.Classes.Index
import AgentDocs.Store.Error

/-! How commands and renderings fail. Either can be the cause of the other. -/
namespace AgentDocs

mutual
inductive CommandError where
  | arity (command : String) (least most given : Nat)
  | invalid (command message : String)
  | ofClass (error : ClassError)
  | missingFile (path : Path)
  | ofRender (error : RenderError)
  | ofStore (error : Store.Error)

inductive RenderError where
  | circularInclusion (path : Path)
  | unresolvedVariable (path : Path) (name : String)
  | ofCommand (path : Path) (command : String) (error : CommandError)
  | ofStore (error : Store.Error)
  /-- Texts that are not stored are rendered within one another without end. -/
  | tooDeep (path : Path)
end

deriving instance Repr, DecidableEq for CommandError, RenderError

/-- How many arguments are expected. -/
def expectedCount (least most : Nat) : String :=
  if least = most then
    "exactly " ++ toString least ++ (if least = 1 then " argument" else " arguments")
  else toString least ++ " to " ++ toString most ++ " arguments"

mutual
def CommandError.message : CommandError → String
  | .arity command least most given =>
    "Macro \"" ++ command ++ "\" expects " ++ expectedCount least most ++ ", " ++ toString given
      ++ " given"
  | .invalid command message => "Macro \"" ++ command ++ "\" " ++ message
  | .ofClass error => error.message
  | .missingFile path => "File \"" ++ path.text ++ "\" does not exist"
  | .ofRender error => error.message
  | .ofStore error => error.message

def RenderError.message : RenderError → String
  | .circularInclusion path => "Circular inclusion detected for file \"" ++ path.text ++ "\""
  | .unresolvedVariable path name =>
    "Variable \"" ++ name ++ "\" not found in parameters (in \"" ++ path.text ++ "\")"
  | .ofCommand path command error =>
    "Macro \"" ++ command ++ "\" failed in \"" ++ path.text ++ "\": " ++ error.message
  | .ofStore error => error.message
  | .tooDeep path => "Inclusion is nested too deeply in file \"" ++ path.text ++ "\""
end

/-- Checks the number of arguments of a command. -/
def expectArguments (command : String) (arguments : List String) (least most : Nat) :
    Except CommandError Unit :=
  if least ≤ arguments.length ∧ arguments.length ≤ most then .ok ()
  else .error (.arity command least most arguments.length)

end AgentDocs
