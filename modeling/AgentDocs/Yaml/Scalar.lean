import AgentDocs.Yaml.Cursor

/-!
The scalars of a YAML text. Plain and quoted scalars fold their lines: a single line break
counts as a space, of several the first is dropped. A literal block keeps its lines, a
folded one joins those that begin without a gap. Fuel bounds the number of steps; as every
step takes a character, the length of the text is enough.
-/
namespace AgentDocs.Yaml

/-- Text gathered so far, last character first, and the gaps and breaks that wait for what
follows: `gaps` while the line goes on, else the first break and the later ones. -/
structure Pending where
  text : List Char
  gaps : List Char
  first : List Char
  later : List Char
  /-- Whether a line break was met since the last character. -/
  broken : Bool

namespace Pending

def empty : Pending := ⟨[], [], [], [], false⟩

/-- Adds what waits to the text. -/
def settle (p : Pending) : Pending :=
  let added :=
    if !p.broken then p.gaps.reverse
    else if p.first == ['\n'] then (if p.later.isEmpty then [' '] else p.later)
    else p.first ++ p.later
  ⟨added.reverse ++ p.text, [], [], [], false⟩

def push (p : Pending) (c : Char) : Pending := { p with text := c :: p.text }

/-- Adds a gap that waits. -/
def gap (p : Pending) (c : Char) : Pending := if p.broken then p else { p with gaps := c :: p.gaps }

/-- Adds a line break that waits. -/
def lineBreak (p : Pending) (br : List Char) : Pending :=
  if p.broken then { p with later := p.later ++ br }
  else { p with gaps := [], first := br, broken := true }

def result (p : Pending) : String := String.ofList p.text.reverse

end Pending

/-! ## Plain scalars -/

/-- The characters that end a plain scalar inside brackets. -/
def isFlowEnd (c : Char) : Bool := c == ',' || c == '[' || c == ']' || c == '{' || c == '}'

/-- Reads the rest of a word. Inside brackets a colon right before an indicator is an error. -/
def plainWord (flow : Bool) : Nat → Cursor → Pending → Option (Cursor × Pending)
  | 0, c, p => some (c, p)
  | fuel + 1, c, p =>
    match c.rest with
    | [] => some (c, p)
    | x :: rest =>
      if isGap x || isBreak x then some (c, p)
      else if flow && x == ':' && (match rest with
          | y :: _ => isFlowEnd y || y == '?'
          | [] => false) then none
      else if x == ':' && endsWord rest then some (c, p)
      else if flow && isFlowEnd x then some (c, p)
      else plainWord flow fuel (c.move 1) (p.settle.push x)

/-- Reads gaps and line breaks. A tab in the indentation of a line is an error. -/
def plainGaps (indent : Int) : Nat → Cursor → Pending → Option (Cursor × Pending)
  | 0, c, p => some (c, p)
  | fuel + 1, c, p =>
    match c.rest with
    | [] => some (c, p)
    | x :: _ =>
      if isGap x then
        if p.broken && (c.column : Int) < indent && x == '\t' then none
        else plainGaps indent fuel (c.move 1) (p.gap x)
      else if isBreak x then
        let (br, next) := c.breakLine
        plainGaps indent fuel next (p.lineBreak br)
      else some (c, p)

/-- Reads a plain scalar up to a comment, a document marker, an end of its words, or outside
brackets a line that is not indented enough. -/
def plainWords (flow : Bool) (indent : Int) : Nat → Cursor → Pending → Option (Cursor × Pending)
  | 0, c, p => some (c, p)
  | fuel + 1, c, p =>
    if c.atMarker || c.atChar '#' then some (c, p)
    else do
      let (c, p) ← plainWord flow c.rest.length c p
      if c.atGap || c.atBreak then
        let (c, p) ← plainGaps indent c.rest.length c p
        if !flow && (c.column : Int) < indent then some (c, p)
        else plainWords flow indent fuel c p
      else some (c, p)

/-- The text of a plain scalar, the place behind it, and whether line breaks follow it. -/
def plainScalar (flow : Bool) (indent : Int) (c : Cursor) : Option (String × Cursor × Bool) := do
  let (c, p) ← plainWords flow indent (c.rest.length + 1) c .empty
  return (p.result, c, p.broken)

/-! ## Quoted scalars -/

def hexDigit? (c : Char) : Option Nat :=
  if c.isDigit then some (c.toNat - 48)
  else if 'a' ≤ c ∧ c ≤ 'f' then some (c.toNat - 87)
  else if 'A' ≤ c ∧ c ≤ 'F' then some (c.toNat - 55)
  else none

/-- The number written by the next `n` hexadecimal digits. -/
def hexNumber? (n : Nat) (cs : List Char) : Option Nat :=
  if cs.length < n then none
  else (cs.take n).foldl (fun acc c => do return (← acc) * 16 + (← hexDigit? c)) (some 0)

/-- The character that an escape stands for, and its length without the backslash. -/
def escaped? : List Char → Option (Char × Nat)
  | [] => none
  | c :: rest =>
    let code (n : Nat) : Option (Char × Nat) := do
      let v ← hexNumber? n rest
      if (0xD800 ≤ v ∧ v ≤ 0xDFFF) ∨ 0x10FFFF < v then none else some (Char.ofNat v, n + 1)
    match c with
    | '0' => some ('\x00', 1)
    | 'a' => some ('\x07', 1)
    | 'b' => some ('\x08', 1)
    | 't' | '\t' => some ('\t', 1)
    | 'n' => some ('\n', 1)
    | 'v' => some ('\x0b', 1)
    | 'f' => some ('\x0c', 1)
    | 'r' => some ('\r', 1)
    | 'e' => some ('\x1b', 1)
    | ' ' => some (' ', 1)
    | '"' => some ('"', 1)
    | '/' => some ('/', 1)
    | '\\' => some ('\\', 1)
    | 'N' => some ('\u0085', 1)
    | '_' => some ('\u00a0', 1)
    | 'L' => some ('\u2028', 1)
    | 'P' => some ('\u2029', 1)
    | 'x' => code 2
    | 'u' => code 4
    | 'U' => code 8
    | _ => none

/-- Reads the rest of a word of a quoted scalar. A backslash at the end of a line of a double
quoted one drops the line break. -/
def quotedWord (single : Bool) : Nat → Cursor → Pending → Option (Cursor × Pending)
  | 0, c, p => some (c, p)
  | fuel + 1, c, p =>
    match c.rest with
    | [] => some (c, p)
    | x :: rest =>
      if isGap x || isBreak x then some (c, p)
      else if single then
        if x == '\'' then
          match rest with
          | '\'' :: _ => quotedWord single fuel (c.move 2) (p.push '\'')
          | _ => some (c, p)
        else quotedWord single fuel (c.move 1) (p.push x)
      else if x == '"' then some (c, p)
      else if x == '\\' then
        match rest with
        | y :: _ =>
          if isBreak y then some ((c.move 1).nextLine, { p with broken := true })
          else match escaped? rest with
            | some (z, n) => quotedWord single fuel (c.move (n + 1)) (p.push z)
            | none => none
        | [] => none
      else quotedWord single fuel (c.move 1) (p.push x)

/-- Reads the gaps and line breaks of a quoted scalar. -/
def quotedGaps : Nat → Cursor → Pending → Cursor × Pending
  | 0, c, p => (c, p)
  | fuel + 1, c, p =>
    match c.rest with
    | [] => (c, p)
    | x :: _ =>
      if isGap x then quotedGaps fuel (c.move 1) (p.gap x)
      else if isBreak x then
        let (br, next) := c.breakLine
        quotedGaps fuel next (p.lineBreak br)
      else (c, p)

/-- Reads a quoted scalar up to its closing quote. -/
def quotedWords (single : Bool) : Nat → Cursor → Pending → Option (Cursor × Pending)
  | 0, _, _ => none
  | fuel + 1, c, p =>
    if c.atMarker || c.rest.isEmpty then none
    else do
      let (c, p) ← quotedWord single c.rest.length c p
      if c.atChar (if single then '\'' else '"') then some (c.move 1, p)
      else
        let (c, p) := quotedGaps c.rest.length c p
        quotedWords single fuel c p.settle

/-- The text of a quoted scalar, after its opening quote, and the place behind it. -/
def quotedScalar (single : Bool) (c : Cursor) : Option (String × Cursor) := do
  let (c, p) ← quotedWords single (c.rest.length + 1) c .empty
  return (p.result, c)

/-! ## Block scalars -/

inductive Chomping where
  | clip
  | strip
  | keep
  deriving DecidableEq, Repr

def chomping? : Char → Option Chomping
  | '+' => some .keep
  | '-' => some .strip
  | _ => none

/-- The indentation indicator: a digit other than zero, zero standing for none. -/
def indicator (c : Cursor) : Option (Nat × Cursor) :=
  match c.rest with
  | x :: _ =>
    if x.isDigit then if x == '0' then none else some (x.toNat - 48, c.move 1)
    else some (0, c)
  | [] => some (0, c)

/-- The chomping indicator. -/
def chompingAt (c : Cursor) : Option (Chomping × Cursor) := do
  let x ← c.rest.head?
  let chomping ← chomping? x
  return (chomping, c.move 1)

/-- The indicators in either order, up to the end of the line. -/
def blockHeader (c : Cursor) : Option (Chomping × Nat × Cursor) := do
  let (chomping, increment, c) ← match chompingAt c with
    | some (chomping, c) => do
      let (n, c) ← indicator c
      some (chomping, n, c)
    | none => do
      let (n, c) ← indicator c
      match (if n = 0 then none else chompingAt c) with
      | some (chomping, c) => some (chomping, n, c)
      | none => some (Chomping.clip, n, c)
  let c := c.moveWhile isGap
  let c := if c.atChar '#' then c.moveToBreak else c
  if c.rest.isEmpty then some (chomping, increment, c)
  else if c.atBreak then some (chomping, increment, c.nextLine)
  else none

/-- Reads indentation and empty lines. `indent` is zero while it is unknown; then the widest
indentation met becomes it, at least `least`. -/
def blockBreaks (least : Nat) :
    Nat → Nat → Nat → List Char → Cursor → Option (Nat × List Char × Cursor)
  | 0, _, _, _, _ => none
  | fuel + 1, indent, widest, breaks, c =>
    let spaces := (c.rest.takeWhile (· == ' ')).length
    let c := c.move (if indent = 0 then spaces else min spaces (indent - c.column))
    let widest := max widest c.column
    if (indent = 0 || c.column < indent) && c.atChar '\t' then none
    else if c.atBreak then
      let (br, c) := c.breakLine
      blockBreaks least fuel indent widest (breaks ++ br) c
    else some (if indent = 0 then max widest least else indent, breaks, c)

/-- Reads the lines of a block. `leading` is the break of the line before, `trailing` the empty
lines behind it; the text is gathered last character first. -/
def blockLines (literal : Bool) (chomping : Chomping) (indent : Nat) :
    Nat → Bool → List Char → List Char → List Char → Cursor → Option (String × Cursor)
  | 0, _, _, _, _, _ => none
  | fuel + 1, gapBefore, leading, trailing, text, c =>
    if c.column == indent && !c.rest.isEmpty then do
      let gap := c.atGap
      let joined :=
        if !literal && leading == ['\n'] && !gapBefore && !gap then
          if trailing.isEmpty then [' '] else []
        else leading
      let line := c.rest.takeWhile fun x => !isBreak x
      let (br, next) := c.moveToBreak.breakLine
      let (_, trailing', next) ← blockBreaks 0 (next.rest.length + 1) indent 0 [] next
      blockLines literal chomping indent fuel gap br trailing'
        (line.reverse ++ (trailing.reverse ++ (joined.reverse ++ text))) next
    else
      let text := if chomping = .strip then text else leading.reverse ++ text
      let text := if chomping = .keep then trailing.reverse ++ text else text
      some (String.ofList text.reverse, c)

/-- The text of a block scalar, after its `|` or `>`, and the place behind it. `outer` is the
indentation of the collection around it, or `-1`. -/
def blockScalar (literal : Bool) (outer : Int) (c : Cursor) : Option (String × Cursor) := do
  let (chomping, increment, c) ← blockHeader c
  let base := outer.toNat
  let start := if increment = 0 then 0 else base + increment
  let least := max (outer + 1).toNat 1
  let (indent, breaks, c) ← blockBreaks least (c.rest.length + 1) start 0 [] c
  blockLines literal chomping indent (c.rest.length + 1) false [] breaks [] c

end AgentDocs.Yaml
