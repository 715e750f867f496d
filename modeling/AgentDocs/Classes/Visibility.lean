import AgentDocs.Text.Blank
import AgentDocs.Text.Fields

/-! Which members of a class a signature shows. -/
namespace AgentDocs

structure Visibility where
  isPublic : Bool
  isProtected : Bool
  isPrivate : Bool
  deriving DecidableEq, Repr, Inhabited

namespace Visibility

def publicOnly : Visibility := ⟨true, false, false⟩

/-- The visibilities in a list; an empty list stands for public members. -/
def ofList (names : List String) : Visibility :=
  if names.isEmpty then publicOnly
  else ⟨names.contains "public", names.contains "protected", names.contains "private"⟩

/-- The visibilities named anywhere in a text; a blank text stands for public members. -/
def ofText (text : String) : Visibility :=
  if Text.allBlank text.toList then publicOnly
  else ⟨Text.contains text "public", Text.contains text "protected", Text.contains text "private"⟩

end Visibility

/-- How a signature is written. -/
structure SignatureOptions where
  excluded : List String
  /-- Only the first sentence of a comment. -/
  shortComments : Bool
  inherited : Bool
  methods : Visibility
  properties : Visibility
  constants : Visibility
  deriving DecidableEq, Repr

/-- All kinds of members of one visibility, without the constructor. -/
def SignatureOptions.ofVisibility (v : Visibility) : SignatureOptions :=
  ⟨["__construct"], false, true, v, v, v⟩

instance : Inhabited SignatureOptions := ⟨.ofVisibility .publicOnly⟩

end AgentDocs
