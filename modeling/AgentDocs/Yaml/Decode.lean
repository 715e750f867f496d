import AgentDocs.Yaml.Core
import AgentDocs.Yaml.Node

/-!
Values of YAML documents. Keys are the text of scalars, and of two entries with one key the
later counts. A local tag has no value. Collections nest at most 128 deep, and a document
may follow at most 100 aliases for each of its events.
-/
namespace AgentDocs.Yaml

/-- A tag of an application, as opposed to one of the standard types. -/
def isLocal : Option String → Bool
  | some tag => tag.toList.head? == some '!'
  | none => false

def standard (name : String) : Option String := some ("tag:yaml.org,2002:" ++ name)

def Meaning.value? : Meaning → Option Json
  | .null | .unbounded => some .null
  | .bool b => some (.bool b)
  | .number n => some (.number n)
  | .tooLarge => none
  | .string => none

/-- The value of a scalar with a standard tag, a plain one without a tag, or a string. -/
def scalarValue? (text : String) (plain : Bool) (tag : Option String) : Option Json :=
  if isLocal tag then none
  else if tag == standard "bool" then (bool? text).map .bool
  else if tag == standard "int" then
    match (integer? text.toList).bind integerMeaning with
    | some m => m.value?
    | none => none
  else if tag == standard "float" then
    if isUnbounded text then some .null
    else (double? text.toList).map fun x => .number (.real x)
  else if tag == standard "null" then if isNull text then some .null else none
  else if plain && tag.isNone then
    match meaning text with
    | .string => some (.string text)
    | m => m.value?
  else some (.string text)

/-- Decoding spends a number of aliases to follow. -/
abbrev Decode := StateT Nat Option

def Decode.fail {α : Type} : Decode α := fun _ => none

/-- Follows an alias, if the node is one. -/
def Document.resolve (d : Document) (node : Node) : Decode Node := fun left =>
  match node with
  | .alias _ => if left = 0 then none else (d.follow node).map ((·, left - 1))
  | node => some (node, left)

/-- The text of a scalar that is a key. -/
def Document.keyText (d : Document) (node : Node) : Decode String := do
  match ← d.resolve node with
  | .scalar text _ _ => return text
  | _ => Decode.fail

/-- The value of a node nested at most `depth` deep. -/
def Document.value (d : Document) (depth : Nat) (node : Node) : Decode Json := do
  match ← d.resolve node with
  | .scalar text plain tag =>
    match scalarValue? text plain tag with
    | some v => return v
    | none => Decode.fail
  | .alias _ => Decode.fail
  | .sequence items tag =>
    if isLocal tag then Decode.fail
    match depth with
    | 0 => Decode.fail
    | depth + 1 => return .array (← items.mapM fun item => d.value depth item)
  | .mapping entries tag =>
    if isLocal tag then Decode.fail
    match depth with
    | 0 => Decode.fail
    | depth + 1 =>
      let members ← entries.mapM fun (key, value) => do
        return (← d.keyText key, ← d.value depth value)
      return .object (Json.sortMembers members)

def depthLimit : Nat := 128

/-- Decodes the root of a document; an empty document is decoded as `none`. -/
def Document.decode {α : Type} (d : Document) (read : Option Node → Decode α) : Option α :=
  ((read d.root).run (100 * d.events)).map (·.1)

/-- The value of a text. -/
def read? (text : String) : Option Json := do
  let d ← Document.read? text.toList
  d.decode fun
    | none => return .null
    | some root => d.value depthLimit root

end AgentDocs.Yaml
