import AgentDocs.Decimal.Shortest

/-!
JSON values. An object lists its members; `canonical` sorts them by key and keeps the last
of two members with one key, so that equal objects are equal lists.
-/
namespace AgentDocs

inductive Number where
  | int (value : Int)
  | real (value : Decimal.Double)
  deriving DecidableEq, Repr, Inhabited

/-- Integers in decimal, doubles in their shortest form. -/
def Number.text : Number → String
  | .int i => toString i
  | .real x => x.write Decimal.signedExponent

inductive Json where
  | null
  | bool (value : Bool)
  | number (value : Number)
  | string (value : String)
  | array (items : List Json)
  | object (members : List (String × Json))
  deriving Repr, Inhabited

namespace Json

/-- What a value is called in messages. -/
def kind : Json → String
  | .null => "null"
  | .bool _ => "boolean"
  | .number _ => "number"
  | .string _ => "string"
  | .array _ => "list"
  | .object _ => "mapping"

/-- Puts a member at its place in key order, over one with the same key. -/
def insertMember {α : Type} (key : String) (value : α) : List (String × α) → List (String × α)
  | [] => [(key, value)]
  | (k, v) :: rest =>
    if key < k then (key, value) :: (k, v) :: rest
    else if key = k then (key, value) :: rest
    else (k, v) :: insertMember key value rest

/-- Members in key order; of two with one key the later counts. -/
def sortMembers {α : Type} (members : List (String × α)) : List (String × α) :=
  members.foldl (fun acc (k, v) => insertMember k v acc) []

mutual
def canonical : Json → Json
  | .array items => .array (canonicalItems items)
  | .object members => .object (sortMembers (canonicalMembers members))
  | v => v

def canonicalItems : List Json → List Json
  | [] => []
  | v :: rest => v.canonical :: canonicalItems rest

def canonicalMembers : List (String × Json) → List (String × Json)
  | [] => []
  | (k, v) :: rest => (k, v.canonical) :: canonicalMembers rest
end

/-- The member of an object with the given key. -/
def get? (key : String) : List (String × Json) → Option Json
  | [] => none
  | (k, v) :: rest => if k = key then some v else get? key rest

end Json
end AgentDocs
