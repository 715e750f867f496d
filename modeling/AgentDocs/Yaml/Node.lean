import AgentDocs.Yaml.Lexer

/-!
The node tree of a YAML text. A text holds at most one document. An alias is kept as a leaf;
`follow` gives the node it stands for, which may lie around the alias.
-/
namespace AgentDocs.Yaml

inductive Node where
  | scalar (text : String) (plain : Bool) (tag : Option String)
  | sequence (items : List Node) (tag : Option String)
  | mapping (entries : List (Node × Node)) (tag : Option String)
  | alias (anchor : Nat)
  deriving Repr, Inhabited

/-- The node that stands where a text has none. -/
def Node.empty : Node := .scalar "" true none

/-- What is known while tokens are read. An anchor has a number; a number given twice belongs to
the later node. -/
structure Builder where
  tokens : List Token
  handles : List (String × String)
  anchors : List (String × Nat)
  /-- The serial of the node that a number belongs to. -/
  owners : List (Nat × Nat)
  nodes : List (Nat × Node)
  serial : Nat
  /-- The number of scalars and aliases, and twice that of collections. -/
  events : Nat

abbrev Build := StateT Builder Option

namespace Build

def peek : Build (Option Token) := do return (← get).tokens.head?

def skip : Build Unit := modify fun b => { b with tokens := b.tokens.tail }

def malformed {α : Type} : Build α := fun _ => none

def count (n : Nat) : Build Unit := modify fun b => { b with events := b.events + n }

/-- Takes an anchor if one comes next. -/
def anchor? : Build (Option String) := do
  match ← peek with
  | some (.anchor name) => skip; return some name
  | _ => return none

/-- Takes a tag if one comes next; an unknown handle is an error. -/
def tag? : Build (Option String) := do
  match ← peek with
  | some (.tag handle suffix) =>
    skip
    if handle.isEmpty then return some suffix
    match (← get).handles.lookup handle with
    | some start => return some (start ++ suffix)
    | none => malformed
  | _ => return none

/-- Takes an anchor and a tag in either order. -/
def properties : Build (Option String × Option String) := do
  let anchor ← anchor?
  let tag ← tag?
  match anchor, tag with
  | none, some tag => return (← anchor?, some tag)
  | _, _ => return (anchor, tag)

/-- Reserves the serial of an anchored node. -/
def register : Option String → Build (Option Nat)
  | none => return none
  | some name => do
    let b ← get
    let number := b.anchors.length
    set { b with
      anchors := (name, number) :: b.anchors.filter (·.1 != name)
      owners := (number, b.serial) :: b.owners
      serial := b.serial + 1 }
    return some b.serial

/-- Keeps a finished node under its serial. -/
def finish (serial : Option Nat) (node : Node) : Build Node := do
  match serial with
  | some n => modify fun b => { b with nodes := (n, node) :: b.nodes }
  | none => pure ()
  return node

/-- An empty scalar. -/
def blank : Build Node := do
  count 1
  return .empty

/-- Whether the next token is one of those given. -/
def comes (ts : List Token) : Build Bool := do
  match ← peek with
  | some t => return ts.contains t
  | none => return false

/-- The next token, which must be the one given. -/
def expect (t : Token) : Build Unit := do
  if ← comes [t] then skip else malformed

mutual
/-- A node. `block` allows block collections, `entries` a sequence at the indentation of the
mapping around it. -/
def node (fuel : Nat) (block entries : Bool) : Build Node :=
  match fuel with
  | 0 => malformed
  | fuel + 1 => do
    match ← peek with
    | some (.alias name) =>
      skip
      count 1
      match (← get).anchors.lookup name with
      | some n => return .alias n
      | none => malformed
    | _ =>
      let (anchor, tag) ← properties
      let next ← peek
      if entries && next == some .blockEntry then
        let serial ← register anchor
        count 2
        finish serial (.sequence (← plainEntries fuel) tag)
      else match next with
        | some (.scalar text plain) =>
          skip
          let serial ← register anchor
          count 1
          finish serial (.scalar text plain (if tag == some "!" then none else tag))
        | some .flowSequenceStart =>
          skip
          let serial ← register anchor
          count 2
          finish serial (.sequence (← flowItems fuel true) tag)
        | some .flowMappingStart =>
          skip
          let serial ← register anchor
          count 2
          finish serial (.mapping (← flowPairs fuel true) tag)
        | some .blockSequenceStart =>
          if !block then malformed else
          skip
          let serial ← register anchor
          count 2
          finish serial (.sequence (← blockItems fuel) tag)
        | some .blockMappingStart =>
          if !block then malformed else
          skip
          let serial ← register anchor
          count 2
          finish serial (.mapping (← blockPairs fuel) tag)
        | _ =>
          if anchor.isNone && tag.isNone then malformed else
          let serial ← register anchor
          count 1
          finish serial (.scalar "" true tag)

/-- The items of a block sequence, up to its end. -/
def blockItems (fuel : Nat) : Build (List Node) :=
  match fuel with
  | 0 => malformed
  | fuel + 1 => do
    match ← peek with
    | some .blockEntry =>
      skip
      let item ← if ← comes [.blockEntry, .blockEnd] then blank else node fuel true false
      return item :: (← blockItems fuel)
    | some .blockEnd => skip; return []
    | _ => malformed

/-- The items of a sequence at the indentation of the mapping around it. -/
def plainEntries (fuel : Nat) : Build (List Node) :=
  match fuel with
  | 0 => malformed
  | fuel + 1 => do
    if ← comes [.blockEntry] then
      skip
      let item ←
        if ← comes [.blockEntry, .key, .value, .blockEnd] then blank else node fuel true false
      return item :: (← plainEntries fuel)
    else return []

/-- The entries of a block mapping, up to its end. -/
def blockPairs (fuel : Nat) : Build (List (Node × Node)) :=
  match fuel with
  | 0 => malformed
  | fuel + 1 => do
    match ← peek with
    | some .key =>
      skip
      let key ← if ← comes [.key, .value, .blockEnd] then blank else node fuel true true
      let value ←
        if ← comes [.value] then
          skip
          if ← comes [.key, .value, .blockEnd] then blank else node fuel true true
        else blank
      return (key, value) :: (← blockPairs fuel)
    | some .blockEnd => skip; return []
    | _ => malformed

/-- The items of a bracketed sequence, up to its end; a pair counts as a mapping. -/
def flowItems (fuel : Nat) (first : Bool) : Build (List Node) :=
  match fuel with
  | 0 => malformed
  | fuel + 1 => do
    if ← comes [.flowSequenceEnd] then
      skip
      return []
    if !first then expect .flowEntry
    if ← comes [.flowSequenceEnd] then
      skip
      return []
    if ← comes [.key] then
      skip
      count 2
      let key ←
        if ← comes [.value, .flowEntry, .flowSequenceEnd] then do
          skip
          blank
        else node fuel false false
      let value ←
        if ← comes [.value] then
          skip
          if ← comes [.flowEntry, .flowSequenceEnd] then blank else node fuel false false
        else blank
      return .mapping [(key, value)] none :: (← flowItems fuel false)
    else
      let item ← node fuel false false
      return item :: (← flowItems fuel false)

/-- The entries of a mapping in braces, up to its end. -/
def flowPairs (fuel : Nat) (first : Bool) : Build (List (Node × Node)) :=
  match fuel with
  | 0 => malformed
  | fuel + 1 => do
    if ← comes [.flowMappingEnd] then
      skip
      return []
    if !first then expect .flowEntry
    if ← comes [.flowMappingEnd] then
      skip
      return []
    if ← comes [.key] then
      skip
      let key ←
        if ← comes [.value, .flowEntry, .flowMappingEnd] then blank else node fuel false false
      let value ←
        if ← comes [.value] then
          skip
          if ← comes [.flowEntry, .flowMappingEnd] then blank else node fuel false false
        else blank
      return (key, value) :: (← flowPairs fuel false)
    else
      let key ← node fuel false false
      let value ← blank
      return (key, value) :: (← flowPairs fuel false)
end

/-- The directives before a document and the mark that starts it. The version is 1.1 or 1.2 and
given once, as every handle is. -/
def directives : Nat → Bool → List (String × String) → Build Unit
  | 0, _, _ => malformed
  | fuel + 1, versioned, handles => do
    match ← peek with
    | some (.version major minor) =>
      skip
      if versioned || major ≠ 1 || (minor ≠ 1 && minor ≠ 2) then malformed
      directives fuel true handles
    | some (.tagDirective handle start) =>
      skip
      if (handles.lookup handle).isSome then malformed
      directives fuel versioned (handles ++ [(handle, start)])
    | some .documentStart =>
      skip
      modify fun b => { b with handles := handles ++ b.handles }
    | _ => malformed

/-- Skips marks that end a document. -/
def documentEnds : Nat → Build Unit
  | 0 => pure ()
  | fuel + 1 => do
    if ← comes [.documentEnd] then
      skip
      documentEnds fuel

/-- The root of the only document; none if the text holds nothing. -/
def document (fuel : Nat) : Build (Option Node) := do
  match ← peek with
  | none => return none
  | some t =>
    let root ← match t with
      | .version .. | .tagDirective .. | .documentStart =>
        directives fuel false []
        match ← peek with
        | none | some (.version ..) | some (.tagDirective ..) | some .documentStart
        | some .documentEnd => blank
        | _ => node fuel true false
      | _ => node fuel true false
    documentEnds fuel
    if (← peek).isSome then malformed
    return some root

end Build

/-- A document: its root, the anchored nodes by their number, and its size. -/
structure Document where
  root : Option Node
  anchored : List (Nat × Node)
  events : Nat

/-- The document of a text; none if the text is malformed or holds more than one. -/
def Document.read? (text : List Char) : Option Document := do
  let tokens ← tokens? text
  let start : Builder :=
    ⟨tokens, [("!", "!"), ("!!", "tag:yaml.org,2002:")], [], [], [], 0, 0⟩
  let (root, b) ← (Build.document (2 * tokens.length + 4)).run start
  let anchored := b.owners.filterMap fun (n, serial) => (b.nodes.lookup serial).map ((n, ·))
  return ⟨root, anchored, b.events⟩

/-- The node that an alias stands for; another node stands for itself. -/
def Document.follow (d : Document) : Node → Option Node
  | .alias n => d.anchored.lookup n
  | node => some node

end AgentDocs.Yaml
