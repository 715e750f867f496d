import AgentDocs.Store.Disk
import AgentDocs.Store.Memory

/-!
Stores of files, in memory or on a disk, behind one set of operations. An operation that fails
leaves the store as it was, except that directories created on the way to a failure stay.
-/
namespace AgentDocs
open Store

inductive Store where
  | memory (m : Memory)
  | disk (d : Disk)
  deriving Repr, Inhabited

namespace Store

/-- What is done with a store: an answer or an error, and the store afterwards. -/
abbrev Task (ε α : Type) := ExceptT ε (StateM Store) α

abbrev Access (α : Type) := Task Error α

/-- Gives another form to the error. -/
def Task.wrapError {ε δ α : Type} (wrap : δ → ε) (task : Task δ α) : Task ε α := fun s =>
  let (result, s) := task s
  (result.mapError wrap, s)

/-- Asks something of a store. -/
def query {α : Type} (p : Path) (inMemory : Memory → Except Error α)
    (onDisk : Disk → Except Fault α) : Access α := fun s =>
  match s with
  | .memory m => (inMemory m, s)
  | .disk d => ((onDisk d).mapError (.ofFault p), s)

/-- Changes a store, unless it fails. -/
def change (p : Path) (inMemory : Memory → Except Error Memory)
    (onDisk : Disk → Except Fault Disk) : Access Unit := fun s =>
  match s with
  | .memory m => match inMemory m with
    | .ok m => (.ok (), .memory m)
    | .error e => (.error e, s)
  | .disk d => match onDisk d with
    | .ok d => (.ok (), .disk d)
    | .error fault => (.error (.ofFault p fault), s)

/-- Reads a file. A store in memory counts it. -/
def read (p : Path) : Access Content := fun s =>
  match s with
  | .memory m => (m.content? p, .memory (m.noteRead p))
  | .disk d => ((d.read p).mapError (.ofFault p), s)

def readText (p : Path) : Access String := do
  let content ← read p
  ExceptT.mk (pure (content.asText p))

def write (p : Path) (content : Content) : Access Unit :=
  change p (·.write p content) (·.write p content)

def writeText (p : Path) (text : String) : Access Unit := write p (.text text)

def remove (p : Path) : Access Unit := change p (·.remove p) (·.remove p)

def exists? (p : Path) (kind : Option Kind) : Access Bool :=
  query p (fun m => .ok (m.exists? p kind)) (·.exists? p kind)

def isFile (p : Path) : Access Bool := exists? p (some .file)

def isDir (p : Path) : Access Bool := exists? p (some .directory)

def createDir (p : Path) : Access Unit := change p (·.createDir p false) (·.createDir p)

/-- Creates a directory and those around it. -/
def createDirs (p : Path) : Access Unit := fun s =>
  match s with
  | .memory _ => change p (·.createDir p true) .ok s
  | .disk d =>
    let (result, d) := d.createDirs p
    (result.mapError (.ofFault p), .disk d)

/-- Removes an empty directory. -/
def removeDir (p : Path) : Access Unit := change p (·.removeDir p) (·.removeDir p)

def children (p : Path) : Access (List Path) :=
  query p (·.children p) fun d => (d.children p).map (·.map (·.1))

def isEmptyDir (p : Path) : Access Bool := return (← children p).isEmpty

/-- The files below a directory whose names are instances of a pattern. -/
def listFiles (dir : Path) (pattern : String) : Access (List Path) := do
  let pattern ← ExceptT.mk (pure (compile pattern))
  query dir (·.listFiles dir pattern) (·.listFiles dir pattern)

/-- The directories right inside a directory whose names are instances of a pattern. -/
def listDirs (dir : Path) (pattern : String) : Access (List Path) := do
  let pattern ← ExceptT.mk (pure (compile pattern))
  query dir (·.listDirs dir pattern) (·.listDirs dir pattern)

/-- What can be asked of a store. -/
inductive Question where
  | exists? (path : Path) (kind : Option Kind)
  | read (path : Path)
  | children (dir : Path)
  | files (dir : Path) (pattern : String)
  | dirs (dir : Path) (pattern : String)
  deriving Repr

abbrev Question.Answer : Question → Type
  | exists? .. => Bool
  | read _ => Content
  | children _ | files .. | dirs .. => List Path

def answer : (q : Question) → Access q.Answer
  | .exists? p kind => exists? p kind
  | .read p => read p
  | .children dir => children dir
  | .files dir pattern => listFiles dir pattern
  | .dirs dir pattern => listDirs dir pattern

/-- Puts a file, with the directories around it. -/
def put (p : Path) (content : Content) : Access Unit := fun s =>
  match s with
  | .memory m => (.ok (), .memory (m.put p content))
  | .disk _ => (do
      if let some dir := p.parent? then createDirs dir
      write p content : Access Unit) s

/-- The files of a store. -/
def files : Store → List (Path × Content)
  | .memory m => m.files
  | .disk d => d.entries.filterMap fun
    | (place, .file content) => some (Path.ofParts (.root :: place.map .name), content)
    | (_, .directory) => none

/-- Whether there is a directory at a path. -/
def hasDir (p : Path) : Store → Bool
  | .memory m => m.isDir p
  | .disk d => d.isDir p

end Store
end AgentDocs
