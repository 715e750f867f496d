import AgentDocs.Json.Reader
import AgentDocs.Markup.HeaderBlock

/-!
Headers: one `name: value` a line. `name[0]` counts as `name`; a value written as a JSON array
gives one header an item, and one written as a JSON string is decoded. A header whose name
begins with `$` stands for its value in all other values and is then dropped.
-/
namespace AgentDocs.Markup
open Text

structure Header where
  name : List Char
  value : List Char
  deriving DecidableEq, Repr, Inhabited

inductive HeaderError where
  | invalidValue (name value : List Char)
  | nonScalarValue (name : List Char)
  deriving DecidableEq, Repr

def HeaderError.message : HeaderError → String
  | .invalidValue name value =>
    "Invalid header value for '" ++ String.ofList name ++ "': " ++ String.ofList value ++ " (<json>)"
  | .nonScalarValue name =>
    "Invalid header value for '" ++ String.ofList name ++ "': items must be scalar or null"

/-- The header on a line, if the line has a colon with something on either side. -/
def Header.ofLine? (line : List Char) : Option Header := do
  let (name, value) ← splitOnce ':' (trim line)
  let name := (trim name).takeWhile (· != '[')
  let value := trim value
  if name.isEmpty || value.isEmpty then none else some ⟨name, value⟩

/-- Whether a value stands between `left` and `right`. -/
def isWrapped (left right : Char) (value : List Char) : Bool :=
  value.head? == some left && value.getLast? == some right

/-- The text of a decoded value. -/
def scalarText (name : List Char) : Json → Except HeaderError (List Char)
  | .null => .ok []
  | .bool b => .ok (if b then ['t', 'r', 'u', 'e'] else ['f', 'a', 'l', 's', 'e'])
  | .number n => .ok n.text.toList
  | .string s => .ok s.toList
  | .array _ | .object _ => .error (.nonScalarValue name)

/-- The headers that one written header stands for. -/
def Header.decoded (h : Header) : Except HeaderError (List Header) :=
  if isWrapped '[' ']' h.value || isWrapped '"' '"' h.value then
    match Json.readRaw? (String.ofList h.value) with
    | none => .error (.invalidValue h.name h.value)
    | some (.array items) => items.mapM fun item => (scalarText h.name item).map (⟨h.name, ·⟩)
    | some v => (scalarText h.name v).map fun text => [⟨h.name, text⟩]
  else .ok [h]

/-- The decoded headers, in order, up to the first failure. -/
def decodeAll : List Header → Except HeaderError (List Header)
  | [] => .ok []
  | h :: rest => do
    let these ← h.decoded
    let others ← decodeAll rest
    return these ++ others

def Header.isVariable (h : Header) : Bool := h.name.head? == some '$'

/-- Puts the value of a variable in place of its name. -/
def Header.bind (binding h : Header) : Header :=
  { h with value := substitute binding.name binding.value h.value }

/-- Binds the variables one after another in the other headers, and drops them. -/
def bindVariables (headers : List Header) : List Header :=
  (headers.filter Header.isVariable).foldl (fun rest v => rest.map v.bind)
    (headers.filter fun h => !h.isVariable)

/-- The headers of a document and its body. -/
structure Headed where
  headers : List Header
  body : List Char
  deriving DecidableEq, Repr

/-- Reads the headers of a document. -/
def readHeaders (document : List Char) : Except HeaderError Headed :=
  match headerBlock? document with
  | none => .ok ⟨[], document⟩
  | some block => do
    let headers ← decodeAll (block.lines.filterMap Header.ofLine?)
    return ⟨bindVariables headers, block.body⟩

/-- The values of all headers with a name. -/
def valuesOf (name : List Char) (headers : List Header) : List (List Char) :=
  (headers.filter (·.name == name)).map Header.value

end AgentDocs.Markup
