import AgentDocs.Text.Blank

/-! Code between fences of backticks. -/
namespace AgentDocs.Text

/-- The length of the longest run of a character, `run` of them standing before the text. -/
def longestRunFrom (c : Char) (run : Nat) : List Char → Nat
  | [] => run
  | d :: rest =>
    if d = c then longestRunFrom c (run + 1) rest else max run (longestRunFrom c 0 rest)

def longestRun (c : Char) (cs : List Char) : Nat := longestRunFrom c 0 cs

/-- Three backticks, or as many as no run in the code has. -/
def fence (code : List Char) : List Char :=
  List.replicate (max 3 (longestRun '\x60' code + 1)) '\x60'

/-- The code between fences that it cannot close, blanks around it aside. -/
def fenced (language code : String) : String :=
  let ticks := String.ofList (fence code.toList)
  ticks ++ language ++ "\n" ++ trimmed code ++ "\n" ++ ticks

end AgentDocs.Text
