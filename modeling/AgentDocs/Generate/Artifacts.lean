import AgentDocs.Generate.Manifest
import AgentDocs.Text.Blank

/-!
The files that a run is going to write. They are collected while templates are expanded, each
claimed by one template, and written when all templates are expanded.
-/
namespace AgentDocs

structure Artifact where
  /-- The path below the root. -/
  path : String
  content : String
  /-- The template that claims the file. -/
  origin : String
  deriving DecidableEq, Repr

structure Artifacts where
  /-- Normal. -/
  root : Path
  /-- In the order of their paths. -/
  items : List Artifact
  deriving Repr

namespace Artifacts

def empty (root : Path) : Artifacts := ⟨root.normal, []⟩

def find? (as : Artifacts) (path : String) : Option Artifact := as.items.find? (·.path == path)

/-- Puts an artifact at its place in the order, over one with its path. -/
def place (a : Artifact) : List Artifact → List Artifact
  | [] => [a]
  | b :: rest =>
    if a.path < b.path then a :: b :: rest
    else if a.path = b.path then a :: rest
    else b :: place a rest

/-- Where a target is below the root, if it is strictly inside. -/
def relative? (root target : Path) : Option String :=
  ((root.join target).normal.below? root).bind fun parts =>
    if Path.isContained parts then some (Path.slashed parts) else none

/-- A text without blanks at its end, and one line feed. -/
def finished (content : String) : String := Text.trimmedRight content ++ "\n"

/-- Claims a target for a template. A template may claim a file again, but no other may. -/
def insert (as : Artifacts) (origin : String) (target : Path) (content : String) :
    Except GenerateError Artifacts :=
  match relative? as.root target with
  | none => .error (.pathOutsideRoot target.text origin)
  | some path =>
    let claimed : Artifacts := { as with items := place ⟨path, finished content, origin⟩ as.items }
    match as.find? path with
    | some other =>
      if other.origin = origin then .ok claimed
      else .error (.duplicateArtifact path other.origin origin)
    | none => .ok claimed

def manifest (as : Artifacts) : Manifest := ⟨as.items.map (·.path)⟩

/-- Creates the directory around a path, if it is not there. -/
def ensureParent (p : Path) : Store.Access Unit := do
  match p.parent? with
  | none => return
  | some dir => if ← Store.isDir dir then return else Store.createDirs dir

def writeItem (root : Path) (a : Artifact) : Store.Access Unit := do
  ensureParent (root.child a.path)
  Store.writeText (root.child a.path) a.content

/-- Writes all artifacts, and gives their paths. -/
def commit (as : Artifacts) : Store.Access (List String) := do
  as.items.forM (writeItem as.root)
  return as.items.map (·.path)

end Artifacts
end AgentDocs
