import AgentDocs.Json.Reader

/-!
Reading an object for the members with one key. What the other members hold is passed over: its
tokens must be well formed, but numbers may be of any size, strings may have single surrogates,
and nesting has no limit.
-/
namespace AgentDocs.Json

/-- Passes over the rest of a string, after its opening quote. -/
def passString? : List Char → Option (List Char)
  | '"' :: rest => some rest
  | '\\' :: 'u' :: a :: b :: c :: d :: rest =>
    if [a, b, c, d].all fun x => (hexValue? x).isSome then passString? rest else none
  | '\\' :: c :: rest =>
    if ['"', '\\', '/', 'b', 'f', 'n', 'r', 't'].contains c then passString? rest else none
  | c :: rest => if c = '\\' ∨ c.toNat < 0x20 then none else passString? rest
  | [] => none

/-- Passes over digits, at least one. -/
def passDigits? (cs : List Char) : Option (List Char) :=
  if cs.head?.any Char.isDigit then some (cs.dropWhile Char.isDigit) else none

/-- Passes over a number: a point and an exponent have digits behind them, and no other digit
follows a leading zero. -/
def passNumber? (cs : List Char) : Option (List Char) := do
  let cs := match cs with
    | '-' :: rest => rest
    | _ => cs
  let rest ← match cs with
    | '0' :: rest => if rest.head?.any Char.isDigit then none else some rest
    | _ => passDigits? cs
  let rest ← match rest with
    | '.' :: rest => passDigits? rest
    | _ => some rest
  match rest with
  | 'e' :: rest | 'E' :: rest => match rest with
    | '+' :: rest | '-' :: rest => passDigits? rest
    | _ => passDigits? rest
  | _ => some rest

mutual
/-- Passes over a value after blanks. -/
def passValue? (fuel : Nat) (cs : List Char) : Option (List Char) :=
  match fuel with
  | 0 => none
  | fuel + 1 =>
    match skipBlanks cs with
    | [] => none
    | c :: rest =>
      if c = 'n' then word? ['u', 'l', 'l'] rest
      else if c = 't' then word? ['r', 'u', 'e'] rest
      else if c = 'f' then word? ['a', 'l', 's', 'e'] rest
      else if c = '"' then passString? rest
      else if c = '[' then
        match skipBlanks rest with
        | ']' :: rest => some rest
        | rest => passItems? fuel rest
      else if c = '{' then
        match skipBlanks rest with
        | '}' :: rest => some rest
        | rest => passMembers? fuel rest
      else passNumber? (c :: rest)

/-- Passes over the items of an array, up to its closing bracket. -/
def passItems? (fuel : Nat) (cs : List Char) : Option (List Char) :=
  match fuel with
  | 0 => none
  | fuel + 1 =>
    match (passValue? fuel cs).map skipBlanks with
    | some (',' :: rest) => passItems? fuel rest
    | some (']' :: rest) => some rest
    | _ => none

/-- Passes over the members of an object, up to its closing brace. -/
def passMembers? (fuel : Nat) (cs : List Char) : Option (List Char) :=
  match fuel with
  | 0 => none
  | fuel + 1 =>
    match skipBlanks cs with
    | '"' :: rest =>
      match (passString? rest).map skipBlanks with
      | some (':' :: rest) =>
        match (passValue? fuel rest).map skipBlanks with
        | some (',' :: rest) => passMembers? fuel rest
        | some ('}' :: rest) => some rest
        | _ => none
      | _ => none
    | _ => none
end

/-- The values of the members with a key, up to the closing brace of the object. -/
def membersNamed? (name : String) (fuel : Nat) (cs : List Char) : Option (List Json × List Char) :=
  match fuel with
  | 0 => none
  | fuel + 1 =>
    match skipBlanks cs with
    | '"' :: rest =>
      match string? rest with
      | none => none
      | some (key, rest) =>
        match skipBlanks rest with
        | ':' :: rest =>
          let value := if key = name then (value? fuel depthLimit rest).map fun (v, rest) => ([v], rest)
            else (passValue? fuel rest).map fun rest => ([], rest)
          match value with
          | none => none
          | some (found, rest) =>
            match skipBlanks rest with
            | ',' :: rest => (membersNamed? name fuel rest).map fun (more, rest) => (found ++ more, rest)
            | '}' :: rest => some (found, rest)
            | _ => none
        | _ => none
    | _ => none

/-- The values of the members with a key, if the text holds an object. -/
def readMembers? (name text : String) : Option (List Json) :=
  let cs := text.toList
  let found := match skipBlanks cs with
    | '{' :: rest => match skipBlanks rest with
      | '}' :: rest => some ([], rest)
      | rest => membersNamed? name (2 * cs.length + 2) rest
    | _ => none
  match found with
  | some (values, rest) => if (skipBlanks rest).isEmpty then some values else none
  | none => none

end AgentDocs.Json
