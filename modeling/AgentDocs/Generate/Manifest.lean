import AgentDocs.Generate.Error
import AgentDocs.Json.Members
import AgentDocs.Json.Writer
import AgentDocs.Path.Normal
import AgentDocs.Store.Basic

/-!
The manifest: the files that a run wrote, by their paths below the root. The next run removes
those that it does not write again, and the directories that are empty then.
-/
namespace AgentDocs

structure Manifest where
  files : List String
  deriving DecidableEq, Repr, Inhabited

namespace Manifest

def fileName : String := ".docgen-metadata.json"

def toJson (m : Manifest) : Json := .object [("files", .array (m.files.map .string))]

/-- The texts of a list of strings. -/
def strings? : List Json → Option (List String)
  | [] => some []
  | .string s :: rest => (strings? rest).map (s :: ·)
  | _ => none

/-- The manifest with a value for its files. -/
def ofFiles? : Json → Option Manifest
  | .array files => (strings? files).map Manifest.mk
  | _ => none

/-- The manifest that a text holds: an object with one member `files`, and any others, or a list
of the list of files. -/
def read? (text : String) : Option Manifest :=
  match Json.readMembers? "files" text with
  | some [files] => ofFiles? files
  | some _ => none
  | none => match Json.readRaw? text with
    | some (.array [files]) => ofFiles? files
    | _ => none

/-- Whether an entry leads to a place inside the root. -/
def isInside (entry : String) : Bool :=
  !entry.isEmpty && Path.isContained (Path.mk entry).normal.parts

/-- The manifest that a text holds. -/
def ofText (text : String) : Except ManifestFault Manifest :=
  match read? text with
  | none => .error .malformed
  | some m =>
    match m.files.find? fun entry => !isInside entry with
    | some entry => .error (.outside entry)
    | none => .ok m

/-- Reads a manifest; where there is no file, it is empty. -/
def load (path : Path) : Store.Task GenerateError Manifest := do
  if ← (Store.isFile path).wrapError .ofStore then
    let text ← (Store.readText path).wrapError .ofStore
    ExceptT.mk (pure ((ofText text).mapError (.ofManifest path)))
  else return ⟨[]⟩

def save (m : Manifest) (path : Path) : Store.Task GenerateError Unit :=
  (Store.writeText path (m.toJson.pretty 0)).wrapError .ofStore

/-- The entries that a later manifest does not have. -/
def stale (m current : Manifest) : List String := m.files.filter fun f => !current.files.contains f

end Manifest

/-- Removes directories, from the inside out, up to the first that is not empty, is the root or
lies outside of it. -/
def pruneDirs (root : Path) : List Path → Store.Access Unit
  | [] => pure ()
  | dir :: outer => do
    if dir.same root || !dir.isWithin root then return
    if !(← Store.isDir dir) then return
    if !(← Store.isEmptyDir dir) then return
    Store.removeDir dir
    pruneDirs root outer

/-- Removes the files of stale entries, and gives the entries that were files. -/
def removeStale (root : Path) : List String → Store.Access (List String)
  | [] => pure []
  | entry :: rest => do
    let path := (root.join ⟨entry⟩).normal
    if ← Store.isFile path then
      Store.remove path
      pruneDirs root path.ancestors.tail
      return entry :: (← removeStale root rest)
    else removeStale root rest

end AgentDocs
