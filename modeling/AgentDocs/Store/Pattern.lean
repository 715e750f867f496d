import AgentDocs.Text.Fields

/-!
Patterns for file names: `?` stands for one character, `*` for any text, `[a-c]` for a character
of a set and `[!a-c]` for one outside of it. `**` stands for whole parts of a path and has to
be one.
-/
namespace AgentDocs.Store
open Text

/-- Characters of a set, both ends of a range included. -/
inductive Choice where
  | single (c : Char)
  | range (first last : Char)
  deriving DecidableEq, Repr

inductive Piece where
  | char (c : Char)
  | anyChar
  | anyText
  | anyParts
  | oneOf (choices : List Choice)
  | noneOf (choices : List Choice)
  deriving DecidableEq, Repr

inductive PatternError where
  | badRange
  | badWildcards
  | badRecursion
  deriving DecidableEq, Repr

def PatternError.message : PatternError → String
  | badRange => "invalid range pattern"
  | badWildcards => "wildcards are either regular \x60*\x60 or recursive \x60**\x60"
  | badRecursion => "recursive wildcards must form a single path component"

def choices : List Char → List Choice
  | a :: '-' :: b :: rest => .range a b :: choices rest
  | c :: rest => .single c :: choices rest
  | [] => []

/-- A set, from behind its opening bracket; its first character may be `]`. -/
def set? (cs : List Char) : Option (Piece × List Char) :=
  let (negated, cs) := match cs with
    | '!' :: rest => (true, rest)
    | _ => (false, cs)
  match cs with
  | [] => none
  | c :: rest => (splitOnce ']' rest).map fun (inner, rest) =>
    let found := choices (c :: inner)
    (if negated then .noneOf found else .oneOf found, rest)

theorem length_set?_lt {cs rest : List Char} {piece : Piece} (h : set? cs = some (piece, rest)) :
    rest.length < cs.length := by
  simp only [set?] at h
  split at h
  · simp at h
  · rename_i c inner heq
    obtain ⟨⟨a, b⟩, hs, hp⟩ := Option.map_eq_some_iff.1 h
    have hl := length_splitOnce hs
    cases hp
    have hc : (c :: inner).length ≤ cs.length := by
      rw [← heq]
      split <;> simp
    simp only [List.length_cons] at hc ⊢
    omega

/-- The pieces of a pattern; `atStart` at the start of a part. -/
def piecesFrom (atStart : Bool) (cs : List Char) : Except PatternError (List Piece) :=
  match cs with
  | [] => .ok []
  | '*' :: '*' :: '*' :: _ => .error .badWildcards
  | '*' :: '*' :: rest =>
    if !atStart then .error .badRecursion
    else match rest with
      | [] => .ok [.anyParts]
      | '/' :: rest => return .anyParts :: (← piecesFrom true rest)
      | _ => .error .badRecursion
  | '*' :: rest => return .anyText :: (← piecesFrom false rest)
  | '?' :: rest => return .anyChar :: (← piecesFrom false rest)
  | '[' :: rest =>
    match _h : set? rest with
    | none => .error .badRange
    | some (piece, rest) => return piece :: (← piecesFrom false rest)
  | c :: rest => return .char c :: (← piecesFrom (c == '/') rest)
termination_by cs.length
decreasing_by
  all_goals simp_wf
  all_goals try have := length_set?_lt _h
  all_goals omega

def pieces (pattern : String) : Except PatternError (List Piece) := piecesFrom true pattern.toList

def Choice.admits (c : Char) : Choice → Bool
  | single d => c == d
  | range first last => first ≤ c && c ≤ last

/-- The ends of a text, from the whole of it to the empty one. -/
def tails : List Char → List (List Char)
  | [] => [[]]
  | c :: cs => (c :: cs) :: tails cs

/-- The texts behind a slash. -/
def tailsOfParts : List Char → List (List Char)
  | [] => []
  | c :: cs => if c = '/' then cs :: tailsOfParts cs else tailsOfParts cs

/-- Whether a text is an instance of a pattern. -/
def admits : List Piece → List Char → Bool
  | [], cs => cs.isEmpty
  | .anyText :: ps, cs => (tails cs).any fun t => admits ps t
  | .anyParts :: ps, cs => admits ps cs || (tailsOfParts cs).any (fun t => admits ps t) || admits ps []
  | _ :: _, [] => false
  | .anyChar :: ps, _ :: cs => admits ps cs
  | .char d :: ps, c :: cs => c == d && admits ps cs
  | .oneOf found :: ps, c :: cs => found.any (·.admits c) && admits ps cs
  | .noneOf found :: ps, c :: cs => !found.any (·.admits c) && admits ps cs

end AgentDocs.Store
