import AgentDocs.Store.Error

/-!
A file system without links. A path is followed field by field from the root or the working
directory: each field is looked up in a directory, so a path that goes through a file fails.
-/
namespace AgentDocs.Store
open Text

inductive Entry where
  | file (content : Content)
  | directory
  deriving DecidableEq, Repr

/-- Where an entry is: the names from the root down. -/
abbrev Place := List String

/-- The order of places, name by name. -/
def placeBefore : Place → Place → Bool
  | [], [] => false
  | [], _ :: _ => true
  | _ :: _, [] => false
  | a :: as, b :: bs => if a = b then placeBefore as bs else a < b

structure Disk where
  /-- The entries below the root, in the order of their places. -/
  entries : List (Place × Entry)
  /-- The working directory. -/
  home : Place
  deriving Repr, Inhabited

namespace Disk

def entry? (d : Disk) (place : Place) : Option Entry :=
  if place.isEmpty then some .directory
  else (d.entries.find? (·.1 == place)).map (·.2)

def insertEntry (place : Place) (e : Entry) : List (Place × Entry) → List (Place × Entry)
  | [] => [(place, e)]
  | (q, f) :: rest =>
    if q = place then (place, e) :: rest
    else if placeBefore place q then (place, e) :: (q, f) :: rest
    else (q, f) :: insertEntry place e rest

def set (d : Disk) (place : Place) (e : Entry) : Disk :=
  { d with entries := insertEntry place e d.entries }

def erase (d : Disk) (place : Place) : Disk :=
  { d with entries := d.entries.filter fun e => e.1 != place }

/-! ## Following a path -/

def longestName : Nat := 255

def longestPath : Nat := 4095

/-- Looks up a name in a directory. -/
def lookUp (d : Disk) (dir : Place) (name : String) : Except Fault (Option Entry) :=
  if name.utf8ByteSize > longestName then .error .nameTooLong else .ok (d.entry? (dir ++ [name]))

/-- Goes one field further. -/
def step (d : Disk) (place : Place) (field : String) : Except Fault Place :=
  if d.entry? place ≠ some .directory then .error .notADirectory
  else if field = "" ∨ field = "." then .ok place
  else if field = ".." then .ok place.dropLast
  else do
    match ← d.lookUp place field with
    | some _ => return place ++ [field]
    | none => .error .missing

/-- The place from which a path is followed. -/
def origin (d : Disk) (p : Path) : Place := if p.isAbsolute then [] else d.home

/-- What is wrong with the text of a path. -/
def checkText (p : Path) : Except Fault Unit :=
  if p.text.toList.contains '\x00' then .error .nulInName
  else if p.text.isEmpty then .error .missing
  else if p.text.utf8ByteSize > longestPath then .error .nameTooLong
  else .ok ()

/-- The entry at a path. -/
def find (d : Disk) (p : Path) : Except Fault (Place × Entry) := do
  checkText p
  let place ← (fields '/' p.text).foldlM d.step (d.origin p)
  match d.entry? place with
  | some e => return (place, e)
  | none => .error .missing

/-- The last field of a path. -/
structure Slot where
  /-- The directory in which the last field is looked up. -/
  dir : Place
  /-- The last field; a path of slashes alone has none. -/
  name : Option String
  /-- Whether slashes follow. -/
  slashed : Bool
  deriving Repr

/-- Follows a path up to its last field. -/
def slot (d : Disk) (p : Path) : Except Fault Slot := do
  checkText p
  let all := (fields '/' p.text).reverse
  match all.dropWhile (·.isEmpty) with
  | [] => return ⟨[], none, true⟩
  | name :: outer =>
    let dir ← outer.reverse.foldlM d.step (d.origin p)
    if d.entry? dir ≠ some .directory then .error .notADirectory
    return ⟨dir, some name, all.head? == some ""⟩

/-! ## Operations -/

def read (d : Disk) (p : Path) : Except Fault Content := do
  match ← d.find p with
  | (_, .file content) => return content
  | (_, .directory) => .error .isADirectory

def exists? (d : Disk) (p : Path) (kind : Option Kind) : Except Fault Bool :=
  match d.find p with
  | .ok (_, .file _) => .ok (kind != some .directory)
  | .ok (_, .directory) => .ok (kind != some .file)
  | .error .missing => .ok false
  | .error fault => .error fault

def write (d : Disk) (p : Path) (content : Content) : Except Fault Disk := do
  let s ← d.slot p
  match s.name with
  | none | some "." | some ".." => .error .isADirectory
  | some name =>
    if s.slashed then .error .isADirectory
    match ← d.lookUp s.dir name with
    | some .directory => .error .isADirectory
    | _ => return d.set (s.dir ++ [name]) (.file content)

def remove (d : Disk) (p : Path) : Except Fault Disk := do
  let s ← d.slot p
  match s.name with
  | none | some "." | some ".." => .error .isADirectory
  | some name =>
    match ← d.lookUp s.dir name with
    | none => .error .missing
    | some .directory => .error .isADirectory
    | some (.file _) =>
      if s.slashed then .error .notADirectory else return d.erase (s.dir ++ [name])

def createDir (d : Disk) (p : Path) : Except Fault Disk := do
  let s ← d.slot p
  match s.name with
  | none | some "." | some ".." => .error .alreadyExists
  | some name =>
    match ← d.lookUp s.dir name with
    | some _ => .error .alreadyExists
    | none => return d.set (s.dir ++ [name]) .directory

def isDir (d : Disk) (p : Path) : Bool :=
  match d.exists? p (some .directory) with
  | .ok found => found
  | .error _ => false

/-- Creates the first of the directories and then, if one around it was missing, those inside,
given from the inside out. What was created stays when a later one fails. -/
def createFrom (d : Disk) : List Path → Except Fault Unit × Disk
  | [] => (.ok (), d)
  | p :: outer =>
    if p.text.isEmpty then (.ok (), d)
    else match d.createDir p with
      | .ok d => (.ok (), d)
      | .error .missing =>
        match d.createFrom outer with
        | (.ok (), d) =>
          match d.createDir p with
          | .ok d => (.ok (), d)
          | .error fault => (if d.isDir p then .ok () else .error fault, d)
        | failed => failed
      | .error fault => (if d.isDir p then .ok () else .error fault, d)

/-- Creates a directory and those around it. -/
def createDirs (d : Disk) (p : Path) : Except Fault Unit × Disk := d.createFrom p.ancestors

def hasChildren (d : Disk) (place : Place) : Bool :=
  d.entries.any fun e => place.isPrefixOf e.1 && e.1 != place

def removeDir (d : Disk) (p : Path) : Except Fault Disk := do
  let s ← d.slot p
  match s.name with
  | none => .error (if d.hasChildren [] then .notEmpty else .busy)
  | some "." => .error .invalidArgument
  | some ".." => .error .notEmpty
  | some name =>
    let place := s.dir ++ [name]
    match ← d.lookUp s.dir name with
    | none => .error .missing
    | some (.file _) => .error .notADirectory
    | some .directory => if d.hasChildren place then .error .notEmpty else return d.erase place

/-- The entries right inside a directory. -/
def children (d : Disk) (p : Path) : Except Fault (List (Path × Entry)) := do
  match ← d.find p with
  | (_, .file _) => .error .notADirectory
  | (place, .directory) => return d.entries.filterMap fun (q, e) =>
    match q.getLast? with
    | some name => if q.dropLast = place then some (p.child name, e) else none
    | none => none

/-- The files at or below a path, depth first and in the order of their names. -/
def walk (d : Disk) (p : Path) : Except Fault (List Path) := do
  match ← d.find p with
  | (_, .file _) => return [p]
  | (place, .directory) => return d.entries.filterMap fun (q, e) =>
    match e with
    | .file _ =>
      if place.isPrefixOf q then some ((q.drop place.length).foldl Path.child p) else none
    | .directory => none

/-- The files at or below a path whose names are instances of a pattern. -/
def listFiles (d : Disk) (p : Path) (pattern : List Piece) : Except Fault (List Path) :=
  return (← d.walk p).filter (nameAdmitted pattern)

/-- The directories right inside a directory whose names are instances of a pattern. -/
def listDirs (d : Disk) (p : Path) (pattern : List Piece) : Except Fault (List Path) :=
  return ((← d.children p).filter fun (q, e) => e == .directory && nameAdmitted pattern q).map (·.1)

end Disk
end AgentDocs.Store
