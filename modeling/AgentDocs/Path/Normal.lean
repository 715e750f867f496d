import AgentDocs.Path.Basic
import AgentDocs.Text.Blank

/-!
Normal paths: no `.`, and `..` only in front of a relative path. A path is made normal by its
text alone, whatever files there are.
-/
namespace AgentDocs.Path
open Text

/-- Takes one part onto the parts before it, last first: `..` takes a name away, and is void at
the root. -/
def fold (before : List Part) : Part → List Part
  | .here => before
  | .up => match before with
    | .name _ :: rest => rest
    | .root :: rest => .root :: rest
    | other => .up :: other
  | part => part :: before

def normalParts (parts : List Part) : List Part := (parts.foldl fold []).reverse

def normal (p : Path) : Path := ofParts (normalParts p.parts)

/-- A text read from within a directory; leading slashes do not count. -/
def within (base : Path) (reference : String) : Path :=
  (base.join ⟨dropSlashes reference⟩).normal

/-- What is left of two lists without the longest common front. -/
def dropCommon : List Part → List Part → List Part × List Part
  | a :: as, b :: bs => if a = b then dropCommon as bs else (a :: as, b :: bs)
  | as, bs => (as, bs)

/-- The way from a directory to a path, if both or neither begin at the root. -/
def relativeTo? (dir target : Path) : Option Path :=
  let dir := dir.normal
  let target := target.normal
  if dir.isAbsolute = target.isAbsolute then
    let (ups, downs) := dropCommon dir.parts target.parts
    some (ofParts (ups.map (fun _ => Part.up) ++ downs))
  else none

/-- The names and `..`, joined by slashes. -/
def slashed (parts : List Part) : String :=
  joined "/" (parts.filterMap fun
    | .name text => some text
    | .up => some ".."
    | _ => none)

def toSlashed (p : Path) : String := slashed p.parts

/-- Whether parts are names only, at least one. -/
def isContained (parts : List Part) : Bool := !parts.isEmpty && parts.all Part.isName

/-- A file by its normal path and by its place below a root. -/
structure Placed where
  path : Path
  relative : String
  deriving DecidableEq, Repr, Inhabited

/-- The place of a path strictly below a root. -/
def placed? (p root : Path) : Option Placed :=
  (p.normal.below? root.normal).bind fun parts =>
    let relative := slashed parts
    if relative.isEmpty then none else some ⟨p.normal, relative⟩

end AgentDocs.Path
