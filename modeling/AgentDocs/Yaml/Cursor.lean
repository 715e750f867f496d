/-!
A place in a YAML text: what is still to be read, how many characters were read, and the line
and column. Five characters end a line; a carriage return and a line feed end one together.
-/
namespace AgentDocs.Yaml

structure Cursor where
  rest : List Char
  index : Nat
  line : Nat
  column : Nat
  deriving Repr

def isBreak (c : Char) : Bool :=
  c == '\n' || c == '\r' || c == '\u0085' || c == '\u2028' || c == '\u2029'

/-- Space or tab. -/
def isGap (c : Char) : Bool := c == ' ' || c == '\t'

/-- Digits, ASCII letters, `_` and `-`. -/
def isWordChar (c : Char) : Bool := c.isAlphanum || c == '_' || c == '-'

/-- The characters a YAML text may hold. -/
def isAllowed (c : Char) : Bool :=
  let n := c.toNat
  n == 0x09 || n == 0x0A || n == 0x0D || (0x20 ≤ n && n ≤ 0x7E) || n == 0x85
    || (0xA0 ≤ n && n ≤ 0xD7FF) || (0xE000 ≤ n && n ≤ 0xFFFD) || 0x10000 ≤ n

/-- Whether a text is at its end or goes on with a gap or a line break. -/
def endsWord : List Char → Bool
  | [] => true
  | c :: _ => isGap c || isBreak c

namespace Cursor

def atBreak (c : Cursor) : Bool :=
  match c.rest with
  | [] => false
  | x :: _ => isBreak x

def atGap (c : Cursor) : Bool :=
  match c.rest with
  | [] => false
  | x :: _ => isGap x

def atChar (c : Cursor) (x : Char) : Bool := c.rest.head? == some x

/-- Moves over `n` characters of the line. -/
def move (n : Nat) (c : Cursor) : Cursor :=
  { c with rest := c.rest.drop n, index := c.index + n, column := c.column + n }

/-- Moves over the characters of the line that satisfy `p`. -/
def moveWhile (p : Char → Bool) (c : Cursor) : Cursor :=
  let n := (c.rest.takeWhile p).length
  { c with rest := c.rest.dropWhile p, index := c.index + n, column := c.column + n }

/-- Moves to the end of the line. -/
def moveToBreak (c : Cursor) : Cursor := c.moveWhile fun x => !isBreak x

/-- The line break at the cursor as it counts in a scalar, and the place behind it. -/
def breakLine (c : Cursor) : List Char × Cursor :=
  let next (n : Nat) : Cursor :=
    { rest := c.rest.drop n, index := c.index + n, line := c.line + 1, column := 0 }
  match c.rest with
  | '\r' :: '\n' :: _ => (['\n'], next 2)
  | x :: _ =>
    if x == '\n' || x == '\r' || x == '\u0085' then (['\n'], next 1)
    else if isBreak x then ([x], next 1)
    else ([], c)
  | [] => ([], c)

def nextLine (c : Cursor) : Cursor := c.breakLine.2

/-- Whether a document marker stands at the cursor: three dashes or three dots at the start of a
line, and nothing right behind them. -/
def atMarker (c : Cursor) : Bool :=
  c.column == 0 && match c.rest with
    | '-' :: '-' :: '-' :: rest => endsWord rest
    | '.' :: '.' :: '.' :: rest => endsWord rest
    | _ => false

end Cursor
end AgentDocs.Yaml
