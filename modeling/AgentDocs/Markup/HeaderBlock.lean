import AgentDocs.Text.Blank
import AgentDocs.Text.Fields

/-!
The block of header lines at the top of a document and the body below it. A ruled block
stands between two lines `---`; in a marked block every line begins with `#!` and blank
lines may stand between. Blank lines below a block belong to it. A document whose first
line is `---` and that has no second such line has no block.
-/
namespace AgentDocs.Markup
open Text

inductive HeaderForm where
  | ruled
  | marked
  deriving DecidableEq, Repr

structure HeaderBlock where
  form : HeaderForm
  lines : List (List Char)
  body : List Char
  deriving DecidableEq, Repr

/-- The lines of a text, each with its line feed. -/
def segments : List Char → List (List Char)
  | [] => []
  | c :: cs =>
    if c = '\n' then [c] :: segments cs
    else match segments cs with
      | [] => [[c]]
      | s :: rest => (c :: s) :: rest

theorem flatten_segments (cs : List Char) : (segments cs).flatten = cs := by
  induction cs with
  | nil => rfl
  | cons c cs ih =>
    simp only [segments]
    split
    · simp [ih]
    · cases h : segments cs with
      | nil => simp_all
      | cons s rest => simp_all

/-- A line without the line feeds and carriage returns that end it. -/
def lineOf (segment : List Char) : List Char :=
  dropTailWhile (fun c => c == '\n' || c == '\r') segment

/-- Whether a line is the rule `---`, blanks around it aside. -/
def isRule (segment : List Char) : Bool := trim segment == ['-', '-', '-']

/-- The body without leading blank lines. -/
def bodyOf (rest : List (List Char)) : List Char := (rest.dropWhile allBlank).flatten

/-- The lines up to the closing rule, and what follows it. -/
def ruledLines? : List (List Char) → Option (List (List Char) × List (List Char))
  | [] => none
  | s :: rest =>
    if isRule s then some ([], rest)
    else (ruledLines? rest).map fun (lines, rest) => (lineOf s :: lines, rest)

/-- The lines marked `#!`, without their marks, and what follows the last of them. -/
def markedLines : List (List Char) → List (List Char) × List (List Char)
  | [] => ([], [])
  | s :: rest =>
    if allBlank s then
      match markedLines rest with
      | ([], _) => ([], s :: rest)
      | found => found
    else match after? ['#', '!'] (lineOf s) with
      | none => ([], s :: rest)
      | some line => match markedLines rest with
        | ([], _) => ([line], rest)
        | (lines, rest) => (line :: lines, rest)

/-- The header block of a document. -/
def headerBlock? (document : List Char) : Option HeaderBlock :=
  match segments document with
  | [] => none
  | first :: rest =>
    if isRule first then
      (ruledLines? rest).map fun (lines, rest) => ⟨.ruled, lines, bodyOf rest⟩
    else match markedLines (first :: rest) with
      | ([], _) => none
      | (lines, rest) => some ⟨.marked, lines, bodyOf rest⟩

/-- The document without its header block. -/
def stripHeaders (document : List Char) : List Char :=
  match headerBlock? document with
  | some block => block.body
  | none => document

end AgentDocs.Markup
