import AgentDocs.CommandLine.Execute

/-!
The program. It reads the files of the project into memory, executes the command line there, and
then writes what has changed. Files that cannot be read count as missing.
-/
namespace AgentDocs.CommandLine
open Store

/-- The content of a file, if it can be read. -/
def readContent? (path : String) : IO (Option Content) :=
  try return some (.ofBytes (← IO.FS.readBinFile path).toList) catch _ => return none

/-- Adds what lies in a directory. -/
partial def loadTree (dir : Path) (disk : Disk) : IO Disk := do
  let mut disk := disk
  for entry in ← (← IO.FS.realPath dir.text).readDir do
    let path := dir.child entry.fileName
    match ← readContent? path.text with
    | some content => disk := ((disk.write path content).toOption).getD disk
    | none =>
      disk := ((disk.createDir path).toOption).getD disk
      try disk ← loadTree path disk catch _ => pure ()
  return disk

/-- Adds the configuration files around a directory, and gives the directory of the project. -/
def loadConfigs (start : Path) (disk : Disk) : IO (Path × Disk) := do
  for dir in start.ancestors do
    for name in Project.configNames do
      if let some content ← readContent? (dir.child name).text then
        let disk := (disk.createDirs dir).2
        return (dir, ((disk.write (dir.child name) content).toOption).getD disk)
  return (start, disk)

/-- Writes what has changed: files that are new or have another content, and what is gone, the
innermost first. -/
def writeChanges (before after : Disk) : IO Unit := do
  let pathOf (place : Place) : Path := .ofParts (.root :: place.map .name)
  for (place, entry) in after.entries do
    if before.entry? place ≠ some entry then
      match entry with
      | .directory => IO.FS.createDirAll (pathOf place).text
      | .file (.text text) => IO.FS.writeFile (pathOf place).text text
      | .file (.binary bytes) => IO.FS.writeBinFile (pathOf place).text ⟨bytes.toArray⟩
  for (place, entry) in before.entries.reverse do
    if (after.entry? place).isNone then
      match entry with
      | .directory => IO.FS.removeDir (pathOf place).text
      | .file _ => IO.FS.removeFile (pathOf place).text

/-- The directory from which a command line searches for the project. -/
def startOf (arguments : List String) (current : Path) : Path :=
  match read arguments with
  | .ok (.generate found) => (current.join ⟨(valuesOf .root found).headD ""⟩).normal
  | _ => current

/-- Runs the program, and gives its exit code. -/
def runProgram (arguments : List String) : IO UInt32 := do
  let current : Path := ⟨toString (← IO.currentDir)⟩
  let home : Place := current.parts.filterMap fun
    | .name text => some text
    | _ => none
  let empty : Disk := ⟨[], home⟩
  let start := startOf arguments current
  let (root, outer) ← loadConfigs start ((empty.createDirs current).2)
  let before ← try loadTree root (outer.createDirs root).2 catch _ => pure outer
  let (outcome, store) := execute arguments current (.disk before)
  if let .disk after := store then writeChanges before after
  IO.print outcome.output
  IO.eprint outcome.errors
  return outcome.code.toUInt32

end AgentDocs.CommandLine

def main (arguments : List String) : IO UInt32 := AgentDocs.CommandLine.runProgram arguments
