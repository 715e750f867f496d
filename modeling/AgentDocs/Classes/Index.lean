import AgentDocs.Classes.Visibility
import AgentDocs.Path.Basic

/-! The classes of the documented code: their signatures and the files that declare them. -/
namespace AgentDocs

inductive ClassError where
  | unknown (name : String)
  | noSourceFile (name : String)
  | failed (name message : String)
  deriving DecidableEq, Repr

def ClassError.message : ClassError → String
  | unknown name => "Class \"" ++ name ++ "\" does not exist"
  | noSourceFile name => "Class \"" ++ name ++ "\" does not have a file location"
  | failed name message => "Cannot describe class \"" ++ name ++ "\": " ++ message

/-- What is known about classes. -/
structure ClassIndex where
  /-- The language in which signatures and sources are written. -/
  language : String
  has : String → Bool
  signature : String → SignatureOptions → Except ClassError String
  sourceFile : String → Except ClassError Path

structure ClassEntry where
  signature : String
  sourceFile : Option Path
  deriving Repr

namespace ClassIndex

/-- An index that knows the classes of a table; the last entry of a name counts. -/
def ofTable (language : String) (table : List (String × ClassEntry)) : ClassIndex :=
  let find (name : String) : Except ClassError ClassEntry :=
    match table.reverse.find? (·.1 == name) with
    | some (_, entry) => .ok entry
    | none => .error (.unknown name)
  { language
    has := fun name => table.any (·.1 == name)
    signature := fun name _ => (find name).map (·.signature)
    sourceFile := fun name => do
      match (← find name).sourceFile with
      | some path => return path
      | none => .error (.noSourceFile name) }

/-- An index without classes. -/
def empty : ClassIndex := ofTable "php" []

end ClassIndex
end AgentDocs
