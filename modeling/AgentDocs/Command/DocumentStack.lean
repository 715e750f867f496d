/-! Entries kept for documents that are rendered within one another: a frame for each. -/
namespace AgentDocs

/-- The frames, that of the innermost document first. -/
abbrev DocumentStack (α : Type) := List (List α)

namespace DocumentStack
variable {α : Type}

/-- Opens a frame. -/
def begin (s : DocumentStack α) : DocumentStack α := [] :: s

/-- Adds an entry to the innermost frame; without one, a frame is opened for it. -/
def push (entry : α) : DocumentStack α → DocumentStack α
  | [] => [[entry]]
  | frame :: rest => (frame ++ [entry]) :: rest

/-- The entries of the innermost frame, oldest first. -/
def current (s : DocumentStack α) : List α := s.headD []

/-- Closes the innermost frame. -/
def close (s : DocumentStack α) : DocumentStack α := s.tail

end DocumentStack
end AgentDocs
