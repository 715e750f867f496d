import AgentDocs.Json.Value
import AgentDocs.Yaml.Style

/-!
Writing values as YAML documents. Collections are written as blocks, two columns a step; a
sequence that is the value of a key stands at the column of the key. Lines are never folded.
-/
namespace AgentDocs.Yaml
open Decimal

/-- The text written so far, last character first, and where the writer stands. -/
structure Page where
  written : List Char
  column : Nat
  /-- The column of the innermost collection, `-1` outside of any. -/
  indent : Int
  /-- Whether a space is needed before the next word. -/
  needsSpace : Bool
  /-- Whether the line holds nothing but indentation and indicators. -/
  fresh : Bool

namespace Page

def start : Page := ⟨[], 0, -1, false, true⟩

def put (c : Char) (p : Page) : Page :=
  { p with written := c :: p.written, column := p.column + 1 }

def putAll (cs : List Char) (p : Page) : Page :=
  { p with written := cs.reverse ++ p.written, column := p.column + cs.length }

/-- Writes a line break. -/
def putBreak (c : Char) (p : Page) : Page := { p with written := c :: p.written, column := 0 }

/-- Moves to the column of the collection, on a new line unless the line is fresh so far. -/
def toIndent (p : Page) : Page :=
  let column := p.indent.toNat
  let p := if !p.fresh || column < p.column || (p.column == column && p.needsSpace) then
    p.putBreak '\n' else p
  { p.putAll (List.replicate (column - p.column) ' ') with needsSpace := false, fresh := true }

/-- Writes an indicator. -/
def indicator (text : String) (spaced : Bool) (opens : Bool) (keepsFresh : Bool) (p : Page) : Page :=
  let p := if spaced && p.needsSpace then p.put ' ' else p
  { p.putAll text.toList with needsSpace := !opens, fresh := p.fresh && keepsFresh }

/-- A step inside a collection; a flat step keeps the column. -/
def deeper (least : Int) (flat : Bool) (p : Page) : Page :=
  { p with indent := if p.indent < 0 then least else if flat then p.indent else p.indent + 2 }

/-! ## Scalars -/

def plain (text : List Char) (p : Page) : Page :=
  let p := if p.needsSpace && !text.isEmpty then p.put ' ' else p
  { p.putAll text with needsSpace := true, fresh := false }

/-- The rest of a single quoted text; `broken` after a line break. -/
def singleQuotedTail (broken : Bool) : List Char → Page → Page
  | [], p => if broken then p.toIndent else p
  | c :: rest, p =>
    if c == ' ' then singleQuotedTail broken rest (p.put c)
    else if isBreak c then
      let p := if !broken && c == '\n' then p.putBreak '\n' else p
      singleQuotedTail true rest { p.putBreak c with fresh := true }
    else
      let p := if broken then p.toIndent else p
      let p := if c == '\'' then p.put '\'' else p
      singleQuotedTail false rest { p.put c with fresh := false }

def singleQuoted (text : List Char) (p : Page) : Page :=
  let p := p.indicator "'" true false false
  let p := singleQuotedTail false text p
  p.indicator "'" false false false

/-- A number in hexadecimal, with at least `n` digits. -/
def hex (n value : Nat) : List Char :=
  let ds := (Nat.toDigits 16 value).map Char.toUpper
  List.replicate (n - ds.length) '0' ++ ds

/-- A character of a double quoted text. -/
def escaped (c : Char) : List Char :=
  let n := c.toNat
  if isPrintable c && !isBreak c && c != '"' && c != '\\' then [c]
  else '\\' ::
    (if n == 0x00 then ['0'] else if n == 0x07 then ['a'] else if n == 0x08 then ['b']
    else if n == 0x09 then ['t'] else if n == 0x0A then ['n'] else if n == 0x0B then ['v']
    else if n == 0x0C then ['f'] else if n == 0x0D then ['r'] else if n == 0x1B then ['e']
    else if n == 0x22 then ['"'] else if n == 0x5C then ['\\'] else if n == 0x85 then ['N']
    else if n == 0x2028 then ['L'] else if n == 0x2029 then ['P']
    else if n ≤ 0xFF then 'x' :: hex 2 n
    else if n ≤ 0xFFFF then 'u' :: hex 4 n
    else 'U' :: hex 8 n)

def doubleQuoted (text : List Char) (p : Page) : Page :=
  let p := p.indicator "\"" true false false
  (p.putAll (text.flatMap escaped)).indicator "\"" false false false

/-- The lines of a literal block; `broken` at the start of a line. -/
def literalTail (broken : Bool) : List Char → Page → Page
  | [], p => p
  | c :: rest, p =>
    if isBreak c then literalTail true rest { p.putBreak c with fresh := true }
    else
      let p := if broken then p.toIndent else p
      literalTail false rest { p.put c with fresh := false }

/-- How a literal block ends: no line break is stripped, one is clipped, more are kept. -/
def chompingMark (text : List Char) : String :=
  match text.reverse with
  | [] => "-"
  | [c] => if isBreak c then "+" else "-"
  | c :: d :: _ => if isBreak c then (if isBreak d then "+" else "") else "-"

def literal (text : List Char) (p : Page) : Page :=
  let p := p.indicator "|" true false false
  let p := match text with
    | c :: _ => if c == ' ' || isBreak c then p.indicator "2" false false false else p
    | [] => p
  let p := p.indicator (chompingMark text) false false false
  literalTail true text { p.putBreak '\n' with fresh := true, needsSpace := false }

def scalar (asked : Style) (simpleKey : Bool) (text : List Char) (p : Page) : Page :=
  let inner := p.deeper 2 false
  let done := match chosenStyle asked simpleKey text with
    | .plain => inner.plain text
    | .singleQuoted => inner.singleQuoted text
    | .doubleQuoted => inner.doubleQuoted text
    | .literal => inner.literal text
  { done with indent := p.indent }

def string (simpleKey : Bool) (text : List Char) (p : Page) : Page :=
  p.scalar (preferredStyle text) simpleKey text

/-- A key with its colon. -/
def key (text : List Char) (p : Page) : Page :=
  let p := p.toIndent
  if isSimpleKey text then (p.string true text).indicator ":" false false false
  else (((p.indicator "?" true false true).string false text).toIndent).indicator ":" true false true

mutual
/-- Writes a value; `asValue` tells that it follows a key. -/
def value (asValue : Bool) : Json → Page → Page
  | .null, p => p.scalar .plain false "null".toList
  | .bool b, p => p.scalar .plain false (if b then "true" else "false").toList
  | .number (.int i), p => p.scalar .plain false (toString i).toList
  | .number (.real x), p => p.scalar .plain false (x.write bareExponent).toList
  | .string s, p => p.string false s.toList
  | .array [], p => (p.indicator "[" true true false).indicator "]" false false false
  | .object [], p => (p.indicator "\x7b" true true false).indicator "\x7d" false false false
  | .array (item :: rest), p =>
    { items (item :: rest) (p.deeper 0 (asValue && !p.fresh)) with indent := p.indent }
  | .object (member :: rest), p =>
    { members (member :: rest) (p.deeper 0 false) with indent := p.indent }

def items : List Json → Page → Page
  | [], p => p
  | v :: rest, p => items rest (value false v ((p.toIndent).indicator "-" true false true))

def members : List (String × Json) → Page → Page
  | [], p => p
  | (k, v) :: rest, p => members rest (value true v (p.key k.toList))
end

end Page

/-- The YAML document of a value. -/
def write (v : Json) : String :=
  String.ofList (Page.toIndent (Page.value false v Page.start)).written.reverse

end AgentDocs.Yaml
