import AgentDocs.Command.DocumentStack
import AgentDocs.Command.Registry
import AgentDocs.Path.Map
import AgentDocs.Store.Basic

/-!
The state of a rendering: the store that is read, what was read before, the files that are being
rendered, the files that were imported, and what the open documents have collected.
-/
namespace AgentDocs
open Template

/-- A file that was rendered to be imported by others. -/
structure Imported where
  target : Path
  content : String
  /-- The template that imported it first. -/
  origin : String
  deriving DecidableEq, Repr

structure Session where
  store : Store
  /-- The bodies of the files read so far. -/
  bodies : PathMap (List Char)
  /-- The files that are being rendered, the innermost first. -/
  pending : List Path
  /-- Where the result of each file is or will be. -/
  targets : PathMap Path
  /-- In the order in which their rendering ended. -/
  imported : List Imported
  references : References
  /-- What was kept, with the name of the command. -/
  documents : DocumentStack (String × Entry)
  journal : List String

namespace Session

def start (store : Store) : Session := ⟨store, [], [], [], [], .empty, [], []⟩

/-- Notes the results of files that are known before they are rendered. Of two paths that are
normally the same, the later one in the order of paths counts. -/
def withTargets (s : Session) (known : List (Path × Path)) : Session :=
  let entries := PathMap.ofList known
  { s with targets := PathMap.ofList (entries.map fun (p, t) => (p.normal, t.normal)) }

def note (lines : List String) (s : Session) : Session := { s with journal := s.journal ++ lines }

/-- The lines that commands note in a phase. -/
def notesOf (phase : Phase) (r : Registry) : List String := r.flatMap (·.notes phase)

def enter (p : Path) (s : Session) : Session := { s with pending := p :: s.pending }

def leave (s : Session) : Session := { s with pending := s.pending.tail }

def openDocument (r : Registry) (s : Session) : Session :=
  { s with documents := s.documents.begin }.note (notesOf .begins r)

def closeDocument (r : Registry) (s : Session) : Session :=
  { s with documents := s.documents.close }.note (notesOf .closes r)

/-- The entries that a command kept for the innermost document. -/
def entriesOf (name : String) (s : Session) : List Entry :=
  (s.documents.current.filter (·.1 == name)).map (·.2)

def keep (name : String) (e : Entry) (s : Session) : Session :=
  { s with documents := s.documents.push (name, e) }

end Session

/-- What is done in a session: an answer or an error, and the session afterwards. -/
abbrev Within (ε α : Type) := ExceptT ε (StateM Session) α

namespace Within
variable {ε δ α : Type}

/-- Uses the store of the session. -/
def onStore (task : Store.Task ε α) : Within ε α := fun s =>
  let (result, store) := task s.store
  (result, { s with store })

def access (wrap : Store.Error → ε) (task : Store.Access α) : Within ε α :=
  onStore (task.wrapError wrap)

/-- Gives another form to the error. -/
def wrapError (wrap : δ → ε) (act : Within δ α) : Within ε α := fun s =>
  let (result, s) := act s
  (result.mapError wrap, s)

/-- Changes the session before, and again after, whether the action failed or not. -/
def between (before after : Session → Session) (act : Within ε α) : Within ε α := fun s =>
  let (result, s) := act (before s)
  (result, after s)

end Within
end AgentDocs
