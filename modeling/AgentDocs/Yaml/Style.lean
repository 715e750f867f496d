import AgentDocs.Text.Slice
import AgentDocs.Yaml.Core
import AgentDocs.Yaml.Cursor

/-!
How a scalar may be written. A text that would read back as something else than a string is
quoted; a text with line feeds asks for a literal block. Which of the asked-for styles a text
admits depends on its indicators, spaces, breaks and unprintable characters.
-/
namespace AgentDocs.Yaml

inductive Style where
  | plain
  | singleQuoted
  | doubleQuoted
  | literal
  deriving DecidableEq, Repr

/-- The style asked for a string. -/
def preferredStyle (text : List Char) : Style :=
  if text.contains '\n' then .literal
  else match meaning (String.ofList text) with
    | .tooLarge | .null | .bool _ | .number _ | .unbounded => .singleQuoted
    | .string => if zeroPadded text then .singleQuoted else .plain

/-- The characters that are written as they are. -/
def isPrintable (c : Char) : Bool :=
  let n := c.toNat
  n == 0x0A || (0x20 ≤ n && n ≤ 0x7E) || (0xA0 ≤ n && n ≤ 0xD7FF)
    || (0xE000 ≤ n && n ≤ 0xFFFD && n != 0xFEFF) || 0x10000 ≤ n

/-- What counts in a text for its style. -/
structure Shape where
  /-- Characters that mean something in front of a text, or where they stand in it. -/
  indicators : Bool
  breaks : Bool
  unprintable : Bool
  leadingGap : Bool
  trailingSpace : Bool
  trailingBreak : Bool
  /-- A space right after a break. -/
  breakSpace : Bool
  /-- A break right after a space. -/
  spaceBreak : Bool

/-- Whether some neighbours satisfy a relation. -/
def anyNeighbours (r : Char → Char → Bool) : List Char → Bool
  | a :: b :: rest => r a b || anyNeighbours r (b :: rest)
  | _ => false

/-- An indicator in front of a text, given whether nothing follows it. -/
def leadsIndicator (c : Char) (alone : Bool) : Bool :=
  "#,[]\x7b\x7d&*!|>'\"%@\x60".toList.contains c || ((c == '?' || c == ':' || c == '-') && alone)

/-- A colon with nothing behind it, or a number sign with nothing before it. -/
def innerIndicators : List Char → Bool
  | a :: b :: rest =>
    (b == ':' && endsWord rest) || (b == '#' && (isGap a || isBreak a)) || innerIndicators (b :: rest)
  | _ => false

def beginsWithMarker : List Char → Bool
  | '-' :: '-' :: '-' :: _ => true
  | '.' :: '.' :: '.' :: _ => true
  | _ => false

def shape (text : List Char) : Shape where
  indicators := beginsWithMarker text || innerIndicators text || (match text with
    | c :: rest => leadsIndicator c (endsWord rest)
    | [] => false)
  breaks := text.any isBreak
  unprintable := text.any fun c => !isPrintable c
  leadingGap := match text with
    | c :: _ => c == ' ' || isBreak c
    | [] => false
  trailingSpace := text.getLast? == some ' '
  trailingBreak := match text.getLast? with
    | some c => isBreak c
    | none => false
  breakSpace := anyNeighbours (fun a b => isBreak a && b == ' ') text
  spaceBreak := anyNeighbours (fun a b => a == ' ' && isBreak b) text

namespace Shape

def admitsPlain (s : Shape) : Bool :=
  !(s.indicators || s.breaks || s.unprintable || s.leadingGap || s.trailingSpace
    || s.trailingBreak || s.breakSpace || s.spaceBreak)

def admitsSingle (s : Shape) : Bool := !(s.breakSpace || s.spaceBreak || s.unprintable)

def admitsBlock (s : Shape) : Bool := !(s.trailingSpace || s.spaceBreak || s.unprintable)

end Shape

/-- Whether a text may be a key without the mark `?`: one line and at most 128 bytes. -/
def isSimpleKey (text : List Char) : Bool := !(text.any isBreak) && Text.width text ≤ 128

/-- The style of a text that is asked for in a style, as a simple key or elsewhere. -/
def chosenStyle (asked : Style) (simpleKey : Bool) (text : List Char) : Style :=
  let s := shape text
  let asked := if asked = .plain ∧ (!s.admitsPlain || (text.isEmpty && simpleKey)) then
    .singleQuoted else asked
  match asked with
  | .singleQuoted => if text.isEmpty || s.admitsSingle then .singleQuoted else .doubleQuoted
  | .literal => if text.isEmpty || !s.admitsBlock || simpleKey then .doubleQuoted else .literal
  | style => style

end AgentDocs.Yaml
