import AgentDocs.Yaml.Scalar
import AgentDocs.Yaml.Token

/-!
The tokens of a YAML text. Indentation becomes tokens that open and close block collections. A
mapping key is known as one only at the colon behind it, so every place where a key may have
begun is kept, one for each open bracket and one for the block around them, and the key's
tokens are put in there later. Such a key ends on its line and within 1024 characters.
-/
namespace AgentDocs.Yaml

/-- A place where a key may have begun: the number of tokens before it and where it stands. A
required key is the next entry of the block mapping around it. -/
structure KeyStart where
  tokens : Nat
  at_ : Cursor
  required : Bool

structure Lexer where
  at_ : Cursor
  tokens : Array Token
  /-- The number of open brackets. -/
  flow : Nat
  /-- The column of the innermost block collection, `-1` outside of any. -/
  indent : Int
  /-- The columns of the collections around it. -/
  outer : List Int
  /-- The possible key of the innermost bracket. -/
  key : Option KeyStart
  /-- The possible keys around it. -/
  keys : List (Option KeyStart)
  keyAllowed : Bool
  finished : Bool

namespace Lexer

def start (text : List Char) : Lexer :=
  ⟨⟨text, 0, 0, 0⟩, #[], 0, -1, [], none, [], true, false⟩

def push (s : Lexer) (t : Token) : Lexer := { s with tokens := s.tokens.push t }

/-- Forgets the possible key; a required one is an error without its colon. -/
def dropKey (s : Lexer) : Option Lexer :=
  match s.key with
  | some k => if k.required then none else some { s with key := none }
  | none => some s

/-- Keeps the place as a possible key. -/
def saveKey (s : Lexer) : Option Lexer :=
  if s.keyAllowed then do
    let s ← s.dropKey
    return { s with
      key := some ⟨s.tokens.size, s.at_, s.flow == 0 && s.indent == (s.at_.column : Int)⟩ }
  else some s

/-- A possible key that ended its line or grew too long is none. -/
def expire (c : Cursor) : Option KeyStart → Option (Option KeyStart)
  | none => some none
  | some k =>
    if k.at_.line < c.line || k.at_.index + 1024 < c.index then
      if k.required then none else some none
    else some (some k)

def expireKeys (s : Lexer) : Option Lexer := do
  return { s with key := ← expire s.at_ s.key, keys := ← s.keys.mapM (expire s.at_) }

/-- Closes the block collections to the right of a column. -/
def closeBlocks (column : Int) : Int → List Int → Array Token → Int × List Int × Array Token
  | indent, [], tokens => (indent, [], tokens)
  | indent, next :: rest, tokens =>
    if column < indent then closeBlocks column next rest (tokens.push .blockEnd)
    else (indent, next :: rest, tokens)

def unroll (column : Int) (s : Lexer) : Lexer :=
  if s.flow ≠ 0 then s
  else
    let (indent, outer, tokens) := closeBlocks column s.indent s.outer s.tokens
    { s with indent, outer, tokens }

/-- Opens a block collection at a column further right, at its place among the tokens. -/
def roll (column : Nat) (place : Nat) (t : Token) (s : Lexer) : Lexer :=
  if s.flow ≠ 0 || (column : Int) ≤ s.indent then s
  else { s with
    indent := column
    outer := s.indent :: s.outer
    tokens := s.tokens.insertIdxIfInBounds place t }

/-- Moves over gaps, comments and line breaks. A tab is no gap where a key may begin outside
brackets. -/
def skipToToken : Nat → Lexer → Lexer
  | 0, s => s
  | fuel + 1, s =>
    let c := if s.at_.index == 0 && s.at_.atChar '\uFEFF' then s.at_.move 1 else s.at_
    let c := c.moveWhile fun x => x == ' ' || (x == '\t' && (s.flow ≠ 0 || !s.keyAllowed))
    let c := if c.atChar '#' then c.moveToBreak else c
    if c.atBreak then
      skipToToken fuel { s with at_ := c.nextLine, keyAllowed := s.keyAllowed || s.flow == 0 }
    else { s with at_ := c }

/-! ## Directives, anchors and tags -/

/-- A number of at most nine digits. -/
def number (c : Cursor) : Option (Nat × Cursor) :=
  let ds := c.rest.takeWhile Char.isDigit
  if ds.isEmpty || 9 < ds.length then none
  else some (ds.foldl (fun n d => n * 10 + (d.toNat - 48)) 0, c.move ds.length)

/-- The characters of a tag outside angle brackets, commas and brackets aside. -/
def isUriChar (c : Char) : Bool :=
  isWordChar c || ";/?:@&=+$.%!~*'()".toList.contains c

/-- The bytes that `%` escapes stand for, as one character. -/
def uriEscape (cs : List Char) : Option (Char × Nat) := do
  let byte (cs : List Char) : Option Nat :=
    match cs with
    | '%' :: rest => hexNumber? 2 rest
    | _ => none
  let first ← byte cs
  let size := if first < 0x80 then 1 else if 0xC0 ≤ first ∧ first < 0xE0 then 2
    else if 0xE0 ≤ first ∧ first < 0xF0 then 3 else if 0xF0 ≤ first ∧ first < 0xF8 then 4 else 0
  if size = 0 then none
  let later ← ((List.range size).drop 1).mapM fun i => byte (cs.drop (3 * i))
  if later.any fun b => b < 0x80 || 0xBF < b then none
  let bytes := (first :: later).map fun b => b.toUInt8
  let text ← String.fromUTF8? ⟨bytes.toArray⟩
  let c ← text.toList.head?
  return (c, 3 * size)

/-- Reads the characters of a tag. -/
def uri (verbatim : Bool) : Nat → List Char → Cursor → Option (List Char × Cursor)
  | 0, acc, c => some (acc.reverse, c)
  | fuel + 1, acc, c =>
    match c.rest with
    | [] => some (acc.reverse, c)
    | x :: _ =>
      if x == '%' then do
        let (y, n) ← uriEscape c.rest
        uri verbatim fuel (y :: acc) (c.move n)
      else if isUriChar x || (verbatim && (x == ',' || x == '[' || x == ']')) then
        uri verbatim fuel (x :: acc) (c.move 1)
      else some (acc.reverse, c)

/-- A tag handle: `!`, a word, and `!` again if it is there. -/
def handle (c : Cursor) : Option (List Char × Cursor) :=
  if c.atChar '!' then
    let word := (c.rest.drop 1).takeWhile isWordChar
    let c := c.move (word.length + 1)
    if c.atChar '!' then some ('!' :: word ++ ['!'], c.move 1) else some ('!' :: word, c)
  else none

/-- A directive: the version or a tag handle. -/
def directive (c : Cursor) : Option (Token × Cursor) := do
  let c := c.move 1
  let name := c.rest.takeWhile isWordChar
  let c := c.move name.length
  if name.isEmpty || !endsWord c.rest then none
  let gaps (c : Cursor) := c.moveWhile isGap
  let (token, c) ←
    if name == "YAML".toList then do
      let (major, c) ← number (gaps c)
      if !c.atChar '.' then none
      let (minor, c) ← number (c.move 1)
      some (Token.version major minor, c)
    else if name == "TAG".toList then do
      let (h, c) ← handle (gaps c)
      if h ≠ ['!'] ∧ h.getLast? ≠ some '!' then none
      if !c.atGap then none
      let (start, c) ← uri true c.rest.length [] (gaps c)
      if start.isEmpty || !endsWord c.rest then none
      some (Token.tagDirective (String.ofList h) (String.ofList start), c)
    else none
  let c := gaps c
  let c := if c.atChar '#' then c.moveToBreak else c
  if c.rest.isEmpty then some (token, c)
  else if c.atBreak then some (token, c.nextLine)
  else none

/-- The name of an anchor or alias, after its sign. -/
def anchorName (c : Cursor) : Option (String × Cursor) :=
  let name := c.rest.takeWhile isWordChar
  let c := c.move name.length
  let ends := endsWord c.rest || (match c.rest with
    | x :: _ => "?:,]\x7d%@\x60".toList.contains x
    | [] => true)
  if name.isEmpty || !ends then none else some (String.ofList name, c)

/-- A tag: verbatim, with a handle, or local. The sign `!` alone has an empty handle. -/
def tag (flow : Bool) (c : Cursor) : Option (Token × Cursor) := do
  let (token, c) ← match c.rest with
    | '!' :: '<' :: _ => do
      let (suffix, c) ← uri true c.rest.length [] (c.move 2)
      if suffix.isEmpty || !c.atChar '>' then none
      some (Token.tag "" (String.ofList suffix), c.move 1)
    | _ => do
      let (h, c) ← handle c
      if 1 < h.length ∧ h.getLast? = some '!' then do
        let (suffix, c) ← uri false c.rest.length [] c
        if suffix.isEmpty then none
        some (Token.tag (String.ofList h) (String.ofList suffix), c)
      else do
        let (suffix, c) ← uri false c.rest.length [] c
        let suffix := h.drop 1 ++ suffix
        if suffix.isEmpty then some (Token.tag "" "!", c)
        else some (Token.tag "!" (String.ofList suffix), c)
  if (flow && c.atChar ',') || endsWord c.rest then some (token, c) else none

/-! ## One token -/

/-- An indicator of one character. -/
def single (t : Token) (s : Lexer) : Lexer := { s.push t with at_ := s.at_.move 1 }

def fetchMarker (t : Token) (s : Lexer) : Option Lexer := do
  let s ← (s.unroll (-1)).dropKey
  return { s.push t with keyAllowed := false, at_ := s.at_.move 3 }

def fetchDirective (s : Lexer) : Option Lexer := do
  let s ← (s.unroll (-1)).dropKey
  let (t, c) ← directive s.at_
  return { s.push t with keyAllowed := false, at_ := c }

def fetchFlowStart (t : Token) (s : Lexer) : Option Lexer := do
  let s ← s.saveKey
  return { s.single t with
    keys := s.key :: s.keys, key := none, flow := s.flow + 1, keyAllowed := true }

def fetchFlowEnd (t : Token) (s : Lexer) : Option Lexer := do
  let s ← s.dropKey
  let s := match s.flow, s.keys with
    | n + 1, k :: rest => { s with flow := n, key := k, keys := rest }
    | _, _ => s
  return { s.single t with keyAllowed := false }

def fetchFlowEntry (s : Lexer) : Option Lexer := do
  let s ← s.dropKey
  return { s.single .flowEntry with keyAllowed := true }

def fetchBlockEntry (s : Lexer) : Option Lexer := do
  if s.flow == 0 && !s.keyAllowed then none
  let s := s.roll s.at_.column s.tokens.size .blockSequenceStart
  let s ← s.dropKey
  return { s.single .blockEntry with keyAllowed := true }

def fetchKey (s : Lexer) : Option Lexer := do
  if s.flow == 0 && !s.keyAllowed then none
  let s := s.roll s.at_.column s.tokens.size .blockMappingStart
  let s ← s.dropKey
  return { s.single .key with keyAllowed := s.flow == 0 }

def fetchValue (s : Lexer) : Option Lexer :=
  match s.key with
  | some k =>
    let s := { s with tokens := s.tokens.insertIdxIfInBounds k.tokens .key }
    let s := s.roll k.at_.column k.tokens .blockMappingStart
    some { s.single .value with key := none, keyAllowed := false }
  | none =>
    if s.flow == 0 && !s.keyAllowed then none
    else
      let s := s.roll s.at_.column s.tokens.size .blockMappingStart
      some { s.single .value with keyAllowed := s.flow == 0 }

/-- A token that may begin a key and after which none may begin. -/
def fetchInline (read : Cursor → Option (Token × Cursor)) (s : Lexer) : Option Lexer := do
  let s ← s.saveKey
  let (t, c) ← read s.at_
  return { s.push t with keyAllowed := false, at_ := c }

def fetchBlockScalar (literal : Bool) (s : Lexer) : Option Lexer := do
  let s ← s.dropKey
  let (text, c) ← blockScalar literal s.indent (s.at_.move 1)
  return { s.push (.scalar text false) with keyAllowed := true, at_ := c }

def fetchPlain (s : Lexer) : Option Lexer := do
  let s ← s.saveKey
  let (text, c, broken) ← plainScalar (s.flow ≠ 0) (s.indent + 1) s.at_
  return { s.push (.scalar text true) with keyAllowed := broken, at_ := c }

def fetchEnd (s : Lexer) : Option Lexer := do
  let s ← (s.unroll (-1)).dropKey
  return { s with keyAllowed := false, finished := true }

/-- The characters that no plain scalar begins with, except where noted in `fetch`. -/
def isIndicator (c : Char) : Bool := "-?:,[]\x7b\x7d#&*!|>'\"%@\x60".toList.contains c

/-- Reads the next token. -/
def fetch (s : Lexer) : Option Lexer := do
  let s := s.skipToToken (s.at_.rest.length + 1)
  let s ← s.expireKeys
  let s := s.unroll s.at_.column
  let c := s.at_
  let flow := s.flow ≠ 0
  match c.rest with
  | [] => s.fetchEnd
  | x :: rest =>
    let alone := endsWord rest
    if c.column == 0 && x == '%' then s.fetchDirective
    else if c.atMarker then s.fetchMarker (if x == '-' then .documentStart else .documentEnd)
    else if x == '[' then s.fetchFlowStart .flowSequenceStart
    else if x == '{' then s.fetchFlowStart .flowMappingStart
    else if x == ']' then s.fetchFlowEnd .flowSequenceEnd
    else if x == '}' then s.fetchFlowEnd .flowMappingEnd
    else if x == ',' then s.fetchFlowEntry
    else if x == '-' && alone then s.fetchBlockEntry
    else if x == '?' && (flow || alone) then s.fetchKey
    else if x == ':' && (flow || alone) then s.fetchValue
    else if x == '*' then
      s.fetchInline fun c => (anchorName (c.move 1)).map fun (name, c) => (.alias name, c)
    else if x == '&' then
      s.fetchInline fun c => (anchorName (c.move 1)).map fun (name, c) => (.anchor name, c)
    else if x == '!' then s.fetchInline (tag flow)
    else if x == '|' && !flow then s.fetchBlockScalar true
    else if x == '>' && !flow then s.fetchBlockScalar false
    else if x == '\'' || x == '"' then
      s.fetchInline fun c =>
        (quotedScalar (x == '\'') (c.move 1)).map fun (text, c) => (.scalar text false, c)
    else if !(isGap x || isIndicator x)
        || (x == '-' && !(match rest with
          | y :: _ => isGap y
          | [] => false))
        || (!flow && (x == '?' || x == ':') && !alone) then s.fetchPlain
    else none

/-- Reads tokens until the text ends. -/
def run : Nat → Lexer → Option (Array Token)
  | 0, _ => none
  | fuel + 1, s =>
    match s.fetch with
    | none => none
    | some s => if s.finished then some s.tokens else run fuel s

end Lexer

/-- The tokens of a text; none if it is malformed. A byte order mark in front is skipped. -/
def tokens? (text : List Char) : Option (List Token) :=
  let text := match text with
    | '\uFEFF' :: rest => rest
    | _ => text
  if text.all isAllowed then
    ((Lexer.start text).run (text.length + 2)).map Array.toList
  else none

end AgentDocs.Yaml
