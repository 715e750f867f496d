import AgentDocs.Markup.Span
import AgentDocs.Text.Blank
import AgentDocs.Text.Fields

/-!
Placeholders between double braces: variables, which are a bare name, and snippets, which may
have arguments after a colon. An argument is a run without commas, closing braces and blanks,
or anything between double quotes. Scanning never fails: double braces that open no
placeholder are text, and the scan goes on one character later.
-/
namespace AgentDocs.Markup
open Text

structure Variable where
  name : String
  span : Span
  deriving DecidableEq, Repr, Inhabited

structure Snippet where
  name : String
  arguments : List String
  span : Span
  deriving DecidableEq, Repr, Inhabited

def skipSpace (cs : List Char) : List Char := cs.dropWhile isSpace

def isNameChar (c : Char) : Bool := c != ':' && c != '}' && !isSpace c

def isArgumentChar (c : Char) : Bool := c != ',' && c != '}' && !isSpace c

/-- A name with blanks around it. -/
def name? (cs : List Char) : Option (List Char × List Char) :=
  let cs := skipSpace cs
  match cs.takeWhile isNameChar with
  | [] => none
  | name => some (name, skipSpace (cs.dropWhile isNameChar))

/-- The closing braces. -/
def close? : List Char → Option (List Char)
  | '}' :: '}' :: rest => some rest
  | _ => none

/-- One argument, if there is one, and what follows. A quote that is never closed takes the
rest of the text. -/
def argument (cs : List Char) : Option (List Char) × List Char :=
  match cs with
  | '"' :: rest =>
    match splitOnce '"' rest with
    | some (text, rest) => (some text, rest)
    | none => (none, [])
  | cs =>
    match cs.takeWhile isArgumentChar with
    | [] => (none, cs)
    | text => (some text, cs.dropWhile isArgumentChar)

theorem length_dropWhile_le (p : Char → Bool) (cs : List Char) :
    (cs.dropWhile p).length ≤ cs.length := (List.dropWhile_suffix p).length_le

theorem length_skipSpace_le (cs : List Char) : (skipSpace cs).length ≤ cs.length :=
  length_dropWhile_le isSpace cs

theorem length_argument_le (cs : List Char) : (argument cs).2.length ≤ cs.length := by
  unfold argument
  split
  · split
    · have := length_splitOnce ‹_›
      simp only [List.length_cons]
      omega
    · simp
  · split
    · exact Nat.le_refl _
    · exact length_dropWhile_le isArgumentChar _

/-- An argument with the blanks behind it. -/
def paddedArgument (cs : List Char) : Option (List Char) × List Char :=
  ((argument cs).1, skipSpace (argument cs).2)

theorem length_paddedArgument_le (cs : List Char) :
    (paddedArgument cs).2.length ≤ cs.length :=
  Nat.le_trans (length_skipSpace_le _) (length_argument_le cs)

/-- The arguments after the colon, up to the closing braces or the first thing that no comma
precedes. -/
def arguments (cs : List Char) : List (List Char) × List Char :=
  match _hs : skipSpace cs with
  | [] => ([], [])
  | c :: rest =>
    if (close? (c :: rest)).isSome then ([], c :: rest)
    else match _ha : paddedArgument (c :: rest) with
      | (found, ',' :: tail) =>
        let more := arguments tail
        (found.toList ++ more.1, more.2)
      | (found, tail) => (found.toList, tail)
termination_by cs.length
decreasing_by
  have h1 := length_skipSpace_le cs
  have h2 := length_paddedArgument_le (c :: rest)
  rw [_hs] at h1
  rw [_ha] at h2
  simp only [List.length_cons] at h1 h2
  omega

theorem length_arguments_le (cs : List Char) : (arguments cs).2.length ≤ cs.length := by
  fun_induction arguments cs with
  | case1 => simp
  | case2 cs c rest hs =>
    have := length_skipSpace_le cs
    rwa [hs] at this
  | case3 cs c rest hs _ found tail ha more ih =>
    have h1 := length_skipSpace_le cs
    have h2 := length_paddedArgument_le (c :: rest)
    rw [hs] at h1
    rw [ha] at h2
    simp only [List.length_cons] at h1 h2
    change (arguments tail).2.length ≤ cs.length
    omega
  | case4 cs c rest hs _ found tail _ ha =>
    have h1 := length_skipSpace_le cs
    have h2 := length_paddedArgument_le (c :: rest)
    rw [hs] at h1
    rw [ha] at h2
    exact Nat.le_trans h2 h1

/-- A variable after its opening braces. -/
def variableBody? (cs : List Char) : Option (List Char × List Char) := do
  let (name, rest) ← name? cs
  return (name, ← close? rest)

/-- A snippet after its opening braces. -/
def snippetBody? (cs : List Char) : Option ((List Char × List (List Char)) × List Char) := do
  let (name, rest) ← name? cs
  let (args, rest) := match rest with
    | ':' :: rest => arguments rest
    | rest => ([], rest)
  return ((name, args), ← close? (skipSpace rest))

theorem length_name?_le {cs name rest : List Char} (h : name? cs = some (name, rest)) :
    rest.length ≤ cs.length := by
  unfold name? at h
  dsimp only at h
  split at h
  · simp at h
  · simp only [Option.some.injEq, Prod.mk.injEq] at h
    rw [← h.2]
    exact Nat.le_trans (length_skipSpace_le _)
      (Nat.le_trans (length_dropWhile_le _ _) (length_skipSpace_le _))

theorem length_close? {cs rest : List Char} (h : close? cs = some rest) :
    rest.length + 2 = cs.length := by
  unfold close? at h
  split at h
  · simp only [Option.some.injEq] at h
    simp [h]
  · simp at h

theorem length_variableBody?_le {cs name rest : List Char}
    (h : variableBody? cs = some (name, rest)) : rest.length ≤ cs.length := by
  simp only [variableBody?, Option.bind_eq_bind, Option.bind_eq_some_iff, Prod.exists,
    Option.pure_def, Option.some.injEq, Prod.mk.injEq] at h
  obtain ⟨_, _, hn, _, hc, _, rfl⟩ := h
  have := length_name?_le hn
  have := length_close? hc
  omega

theorem length_snippetBody?_le {cs rest : List Char} {body : List Char × List (List Char)}
    (h : snippetBody? cs = some (body, rest)) : rest.length ≤ cs.length := by
  simp only [snippetBody?, Option.bind_eq_bind, Option.bind_eq_some_iff, Prod.exists,
    Option.pure_def, Option.some.injEq, Prod.mk.injEq] at h
  obtain ⟨name, after, hn, tail, hc, _, rfl⟩ := h
  have h1 := length_name?_le hn
  have h2 := length_close? hc
  have h3 := length_skipSpace_le (match after with
    | ':' :: rest => arguments rest
    | rest => ([], rest)).2
  have h4 : (match after with
    | ':' :: rest => arguments rest
    | rest => ([], rest)).2.length ≤ after.length := by
    split
    · exact Nat.le_trans (length_arguments_le _) (Nat.le_succ _)
    · exact Nat.le_refl _
  omega

/-- Finds what `body` reads after opening braces, from left to right; a find is never searched
again. -/
def scan {α : Type} (body : List Char → Option (α × List Char))
    (shrinks : ∀ {cs a rest}, body cs = some (a, rest) → rest.length ≤ cs.length)
    (at_ : Nat) (cs : List Char) : List (α × Span) :=
  match cs with
  | [] => []
  | c :: rest =>
    match _hb : (match c, rest with
      | '{', '{' :: inner => body inner
      | _, _ => none) with
    | some (a, after) =>
      let stop := at_ + (width (c :: rest) - width after)
      (a, ⟨at_, stop⟩) :: scan body shrinks stop after
    | none => scan body shrinks (at_ + c.utf8Size) rest
termination_by cs.length
decreasing_by
  · split at _hb
    · have := shrinks _hb
      simp only [List.length_cons]
      omega
    · simp at _hb
  · simp

/-- The variables of a text, in order. -/
def variablesIn (text : List Char) : List Variable :=
  (scan variableBody? length_variableBody?_le 0 text).map fun (name, span) =>
    ⟨String.ofList name, span⟩

/-- The snippets of a text, in order. -/
def snippetsIn (text : List Char) : List Snippet :=
  (scan snippetBody? length_snippetBody?_le 0 text).map fun ((name, args), span) =>
    ⟨String.ofList name, args.map String.ofList, span⟩

end AgentDocs.Markup
