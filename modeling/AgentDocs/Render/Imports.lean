import AgentDocs.Path.Map

/-! Where imported files are put: under their own names, or with a number where a name is taken. -/
namespace AgentDocs.Imports

/-- The `n`-th name for a file: its own, then `stem-1`, `stem-2` and so on with its extension. -/
def candidateName (source : Path) (n : Nat) : String :=
  if n = 0 then source.fileName?.getD ""
  else
    let numbered := source.stem?.getD "" ++ "-" ++ toString n
    match source.extension? with
    | some extension => numbered ++ "." ++ extension
    | none => numbered

def candidate (dir source : Path) (n : Nat) : Path := dir.child (candidateName source n)

/-- The first candidate that is not taken. The candidates are different places, so one more than
are taken suffices. -/
def freeTarget (taken : List Path) (dir source : Path) : Path :=
  let isFree (n : Nat) : Bool := !taken.any ((candidate dir source n).same ·)
  candidate dir source (((List.range (taken.length + 1)).find? isFree).getD (taken.length + 1))

end AgentDocs.Imports
