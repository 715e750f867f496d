import AgentDocs.Command.Script

/-! The commands that can be dispatched, in the order of their registration. -/
namespace AgentDocs

abbrev Registry := List Command

namespace Registry

def find? (name : String) (r : Registry) : Option Command :=
  match r with
  | [] => none
  | c :: rest => if c.name = name then some c else find? name rest

def has (name : String) (r : Registry) : Bool := (find? name r).isSome

def names (r : Registry) : List String := r.map (·.name)

/-- Adds a command, in the place of one with the same name if there is one. -/
def register (c : Command) : Registry → Registry
  | [] => [c]
  | d :: rest => if d.name = c.name then c :: rest else d :: register c rest

end Registry
end AgentDocs
