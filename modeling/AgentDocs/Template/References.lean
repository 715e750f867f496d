/-!
Names of skills and docs: those that templates produce, and those that texts mention. They are
compared when all templates are expanded, so a mention may come before the name it mentions.
-/
namespace AgentDocs.Template

inductive ReferenceKind where
  | skill
  | doc
  deriving DecidableEq, Repr

def ReferenceKind.noun : ReferenceKind → String
  | skill => "skill"
  | doc => "doc"

/-- A name that a file mentions. -/
structure Mention where
  file : String
  kind : ReferenceKind
  name : String
  deriving DecidableEq, Repr

structure References where
  skills : List String
  docs : List String
  /-- In the order in which they were made. -/
  mentions : List Mention
  deriving DecidableEq, Repr

namespace References

def empty : References := ⟨[], [], []⟩

instance : Inhabited References := ⟨empty⟩

/-- Adds a name that is produced. -/
def add (kind : ReferenceKind) (name : String) (r : References) : References :=
  match kind with
  | .skill => { r with skills := name :: r.skills }
  | .doc => { r with docs := name :: r.docs }

def mention (m : Mention) (r : References) : References := { r with mentions := r.mentions ++ [m] }

/-- Whether the name that is mentioned is produced. -/
def isKnown (r : References) (m : Mention) : Bool :=
  match m.kind with
  | .skill => r.skills.contains m.name
  | .doc => r.docs.contains m.name

/-- The first mention of a name that is not produced. -/
def unknown? (r : References) : Option Mention := r.mentions.find? fun m => !r.isKnown m

end References
end AgentDocs.Template
