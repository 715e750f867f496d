import AgentDocs.Path.Basic

/-!
Finite maps from paths, in the order of the paths. Two spellings of one place are one key; the
spelling that came first stays.
-/
namespace AgentDocs

/-- Entries in path order. -/
abbrev PathMap (α : Type) := List (Path × α)

namespace PathMap
variable {α : Type}

def get? (p : Path) : PathMap α → Option α
  | [] => none
  | (q, v) :: rest => if q.same p then some v else get? p rest

def has (p : Path) (m : PathMap α) : Bool := (get? p m).isSome

/-- Sets the value of a key. -/
def insert (p : Path) (v : α) : PathMap α → PathMap α
  | [] => [(p, v)]
  | (q, w) :: rest =>
    if q.same p then (q, v) :: rest
    else if p.before q then (p, v) :: (q, w) :: rest
    else (q, w) :: insert p v rest

def erase (p : Path) (m : PathMap α) : PathMap α := m.filter fun e => !e.1.same p

def keys (m : PathMap α) : List Path := m.map (·.1)

def ofList (entries : List (Path × α)) : PathMap α :=
  entries.foldl (fun m (p, v) => insert p v m) []

end PathMap
end AgentDocs
