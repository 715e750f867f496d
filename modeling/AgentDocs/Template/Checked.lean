import AgentDocs.Json.Value
import AgentDocs.Text.Fields
import AgentDocs.Text.Quoted

/-!
Checking values. A check gives what it could read and all the places where a value is not as
expected, so that one fault does not hide another.
-/
namespace AgentDocs.Template

structure Violation where
  path : String
  expected : String
  found : String
  deriving DecidableEq, Repr

def Violation.line (v : Violation) : String :=
  "  " ++ v.path ++ ": expected " ++ v.expected ++ ", found " ++ v.found

/-- A line for each violation. -/
def report (vs : List Violation) : String := Text.joined "\n" (vs.map Violation.line)

structure Checked (α : Type) where
  value : α
  violations : List Violation
  deriving Repr

instance : Monad Checked where
  pure a := ⟨a, []⟩
  bind x f := let y := f x.value; ⟨y.value, x.violations ++ y.violations⟩

/-- What was read, unless something is wrong. -/
def Checked.result {α : Type} (c : Checked α) : Except (List Violation) α :=
  if c.violations.isEmpty then .ok c.value else .error c.violations

/-- How a value is described in a violation. -/
def describe : Json → String
  | .null => "null"
  | .bool b => "boolean " ++ if b then "true" else "false"
  | .number n => "number " ++ n.text
  | .string s => if s.isEmpty then "empty string" else "string " ++ Text.quoted s
  | .array [] => "empty list"
  | .array _ => "list"
  | .object _ => "mapping"

def complain {α : Type} (path expected found : String) : Checked (Option α) :=
  ⟨none, [⟨path, expected, found⟩]⟩

/-- A mapping, with the place it stands at. -/
structure Section where
  path : String
  members : List (String × Json)

def boolean (path : String) : Json → Checked (Option Bool)
  | .bool b => pure (some b)
  | other => complain path "boolean" (describe other)

def nonEmptyString (path : String) (v : Json) : Checked (Option String) :=
  match v with
  | .string s =>
    if s.isEmpty then complain path "non-empty string" (describe v) else pure (some s)
  | _ => complain path "non-empty string" (describe v)

def Section.required (s : Section) (key : String) : Checked (Option String) :=
  let path := s.path ++ "." ++ key
  match Json.get? key s.members with
  | some v => nonEmptyString path v
  | none => complain path "non-empty string" "missing"

def nonEmptyList (path : String) : Json → Checked (Option (List Json))
  | .array (v :: rest) => pure (some (v :: rest))
  | other => complain path "non-empty list" (describe other)

/-- The place of an item of a list. -/
def itemPath (path : String) (i : Nat) : String := path ++ "[" ++ toString i ++ "]"

/-- Reads the items of a list that must not be empty, and keeps those that could be read. -/
def eachItem {α : Type} (path : String) (read : String → Json → Checked (Option α)) (v : Json) :
    Checked (List α) := do
  match ← nonEmptyList path v with
  | none => return []
  | some items =>
    let found ← items.zipIdx.mapM fun (item, i) => read (itemPath path i) item
    return found.filterMap id

def stringList (path : String) (v : Json) : Checked (List String) := eachItem path nonEmptyString v

/-- A mapping that has no keys but the allowed ones. -/
def mapping (allowed : List String) (path : String) : Json → Checked (Option Section)
  | .object members =>
    ⟨some ⟨path, members⟩, (members.filter fun (key, _) => !allowed.contains key).map fun (key, _) =>
      ⟨path ++ "." ++ key, "one of " ++ Text.joined ", " allowed, "unknown key"⟩⟩
  | other => complain path "mapping" (describe other)

/-- Reads the member of a key, if there is one. -/
def Section.optional {α : Type} (s : Section) (key : String) (default : α)
    (read : String → Json → Checked α) : Checked α :=
  match Json.get? key s.members with
  | none => pure default
  | some v => read (if s.path.isEmpty then key else s.path ++ "." ++ key) v

end AgentDocs.Template
