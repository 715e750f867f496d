import AgentDocs.Path.Map
import AgentDocs.Store.Error

/-!
A store kept in memory: files by path, the directories there are, and how often each file was
read. A file is written only into a directory there is; nothing keeps a path from being a file
and a directory at once.
-/
namespace AgentDocs.Store

structure Memory where
  files : PathMap Content
  dirs : PathMap Unit
  reads : PathMap Nat
  deriving Repr, Inhabited

namespace Memory

def empty : Memory := ⟨[], [], []⟩

def isFile (m : Memory) (p : Path) : Bool := PathMap.has p m.files

def isDir (m : Memory) (p : Path) : Bool := PathMap.has p m.dirs

def exists? (m : Memory) (p : Path) : Option Kind → Bool
  | none => m.isFile p || m.isDir p
  | some .file => m.isFile p
  | some .directory => m.isDir p

/-- How often a file was read. -/
def readCount (m : Memory) (p : Path) : Nat := (PathMap.get? p m.reads).getD 0

def content? (m : Memory) (p : Path) : Except Error Content :=
  match PathMap.get? p m.files with
  | some content => .ok content
  | none => .error (.notFound p)

/-- Notes that a file was read, if there is one. -/
def noteRead (m : Memory) (p : Path) : Memory :=
  if m.isFile p then { m with reads := PathMap.insert p (m.readCount p + 1) m.reads } else m

/-- Adds the directory at a path and those around it. -/
def addDirs (m : Memory) (p : Path) : Memory :=
  { m with
    dirs := (p.ancestors.takeWhile fun dir => !dir.text.isEmpty).foldl
      (fun dirs dir => PathMap.insert dir () dirs) m.dirs }

def setFile (m : Memory) (p : Path) (content : Content) : Memory :=
  { m with files := PathMap.insert p content m.files }

/-- Puts a file, with the directories around it. -/
def put (m : Memory) (p : Path) (content : Content) : Memory :=
  match p.parent? with
  | some dir => (m.addDirs dir).setFile p content
  | none => m.setFile p content

def write (m : Memory) (p : Path) (content : Content) : Except Error Memory :=
  match p.parent? with
  | none => .error (.notFound p)
  | some dir => if m.isDir dir then .ok (m.setFile p content) else .error (.notFound dir)

def remove (m : Memory) (p : Path) : Except Error Memory :=
  if m.isFile p then .ok { m with files := PathMap.erase p m.files } else .error (.notFound p)

/-- Creates a directory; without `nested`, the one around it must be there. -/
def createDir (m : Memory) (p : Path) (nested : Bool) : Except Error Memory :=
  match p.parent? with
  | some dir => if nested || m.isDir dir then .ok (m.addDirs p) else .error (.notFound dir)
  | none => .ok (m.addDirs p)

/-- The paths right inside a directory. -/
def childrenOf (m : Memory) (p : Path) : List Path :=
  PathMap.keys <| PathMap.ofList <|
    ((PathMap.keys m.files ++ PathMap.keys m.dirs).filter fun q =>
      q.parent?.any (·.same p)).map fun q => (q, ())

def children (m : Memory) (p : Path) : Except Error (List Path) :=
  if m.isDir p then .ok (m.childrenOf p) else .error (.notFound p)

def removeDir (m : Memory) (p : Path) : Except Error Memory :=
  if !m.isDir p then .error (.notFound p)
  else if (m.childrenOf p).isEmpty then .ok { m with dirs := PathMap.erase p m.dirs }
  else .error (.io p .occupied)

/-- The files below a directory whose names are instances of a pattern. -/
def listFiles (m : Memory) (dir : Path) (pattern : List Piece) : Except Error (List Path) :=
  if m.isDir dir then
    .ok ((PathMap.keys m.files).filter fun p => p.isWithin dir && nameAdmitted pattern p)
  else .error (.notFound dir)

/-- The directories right inside a directory whose names are instances of a pattern. -/
def listDirs (m : Memory) (dir : Path) (pattern : List Piece) : Except Error (List Path) :=
  return (← m.children dir).filter fun p => m.isDir p && nameAdmitted pattern p

end Memory
end AgentDocs.Store
