import AgentDocs.Json.Value
import AgentDocs.Text.Fields

/-!
JSON texts: a compact form on one line, and an indented one with a line for each item and
each member. Only quotes, backslashes and control characters are escaped.
-/
namespace AgentDocs.Json

def hexDigit (n : Nat) : Char := Nat.digitChar (n % 16)

/-- One character of a string. -/
def escapeChar (c : Char) : List Char :=
  if c = '"' then ['\\', '"']
  else if c = '\\' then ['\\', '\\']
  else if c = '\n' then ['\\', 'n']
  else if c = '\r' then ['\\', 'r']
  else if c = '\t' then ['\\', 't']
  else if c = '\x08' then ['\\', 'b']
  else if c = '\x0c' then ['\\', 'f']
  else if c.toNat < 0x20 then ['\\', 'u', '0', '0', hexDigit (c.toNat / 16), hexDigit c.toNat]
  else [c]

def quoteChars (cs : List Char) : List Char := '"' :: cs.flatMap escapeChar ++ ['"']

def quote (s : String) : String := String.ofList (quoteChars s.toList)

/-- The items between brackets, separated by commas. -/
def bracket (left right : String) : List String → String
  | [] => left ++ right
  | items => left ++ Text.joined "," items ++ right

mutual
/-- The compact form. -/
def write : Json → String
  | .null => "null"
  | .bool b => if b then "true" else "false"
  | .number n => n.text
  | .string s => quote s
  | .array items => bracket "[" "]" (writeItems items)
  | .object members => bracket "\x7b" "\x7d" (writeMembers members)

def writeItems : List Json → List String
  | [] => []
  | v :: rest => v.write :: writeItems rest

def writeMembers : List (String × Json) → List String
  | [] => []
  | (k, v) :: rest => (quote k ++ ":" ++ v.write) :: writeMembers rest
end

/-- Two spaces a step. -/
def indent (depth : Nat) : String := String.ofList (List.replicate (2 * depth) ' ')

/-- Items on lines of their own, one step deeper than the brackets. -/
def block (left right : String) (depth : Nat) : List String → String
  | [] => left ++ right
  | items =>
    let lines := items.map fun item => "\n" ++ indent (depth + 1) ++ item
    left ++ Text.joined "," lines ++ "\n" ++ indent depth ++ right

mutual
/-- The indented form at a depth. -/
def pretty (depth : Nat) : Json → String
  | .array items => block "[" "]" depth (prettyItems (depth + 1) items)
  | .object members => block "\x7b" "\x7d" depth (prettyMembers (depth + 1) members)
  | v => v.write

def prettyItems (depth : Nat) : List Json → List String
  | [] => []
  | v :: rest => v.pretty depth :: prettyItems depth rest

def prettyMembers (depth : Nat) : List (String × Json) → List String
  | [] => []
  | (k, v) :: rest => (quote k ++ ": " ++ v.pretty depth) :: prettyMembers depth rest
end

end AgentDocs.Json
