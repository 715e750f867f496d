import AgentDocs.Json.Value

/-! Parameters: the texts that stand for variables, by name and in the order of the names. -/
namespace AgentDocs

abbrev Parameters := List (String × String)

namespace Parameters

def get? (name : String) (ps : Parameters) : Option String := (ps.find? (·.1 == name)).map (·.2)

def ofList (entries : List (String × String)) : Parameters := Json.sortMembers entries

/-- Puts new parameters over those there are. -/
def update (ps new : Parameters) : Parameters :=
  new.foldl (fun ps (name, value) => Json.insertMember name value ps) ps

end Parameters
end AgentDocs
