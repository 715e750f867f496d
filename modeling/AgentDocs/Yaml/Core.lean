import AgentDocs.Decimal.Shortest
import AgentDocs.Json.Value
import AgentDocs.Text.Fields

/-!
What plain scalars mean: null, booleans, integers in four bases and doubles have fixed
spellings, everything else is a string. An integer of 128 bits that does not fit 64 has no
meaning at all; a longer one is a double.
-/
namespace AgentDocs.Yaml
open Decimal

inductive Meaning where
  | null
  | bool (value : Bool)
  | number (value : Number)
  /-- Infinite, or not a number. -/
  | unbounded
  /-- An integer between 64 and 128 bits. -/
  | tooLarge
  | string
  deriving Repr

def isNull (s : String) : Bool := s == "null" || s == "Null" || s == "NULL" || s == "~"

def bool? (s : String) : Option Bool :=
  if s == "true" || s == "True" || s == "TRUE" then some true
  else if s == "false" || s == "False" || s == "FALSE" then some false
  else none

/-- The number written by digits of a base; a text without digits is none. -/
def natural? (base : Nat) (cs : List Char) : Option Nat :=
  let digit? (c : Char) : Option Nat :=
    let v := if c.isDigit then c.toNat - 48
      else if c.isAlpha then c.toLower.toNat - 87 else 36
    if v < base then some v else none
  if cs.isEmpty then none
  else cs.foldl (fun acc c => do return (← acc) * base + (← digit? c)) (some 0)

/-- Whether a text is a zero with more digits behind it, a sign aside. -/
def zeroPadded (cs : List Char) : Bool :=
  let cs := match cs with
    | '-' :: rest | '+' :: rest => rest
    | _ => cs
  match cs with
  | '0' :: rest => !rest.isEmpty && rest.all Char.isDigit
  | _ => false

/-- The integer of a text with a base mark or without. -/
def based? (cs : List Char) : Option Nat :=
  match cs with
  | '0' :: 'x' :: rest => natural? 16 rest
  | '0' :: 'o' :: rest => natural? 8 rest
  | '0' :: 'b' :: rest => natural? 2 rest
  | _ => natural? 10 cs

/-- The integer that a scalar is. -/
def integer? (cs : List Char) : Option Int :=
  if zeroPadded cs then none
  else match cs with
    | '-' :: rest => (based? rest).map fun n => -(n : Int)
    | '+' :: rest => (based? rest).map fun n => (n : Int)
    | _ => (based? cs).map fun n => (n : Int)

/-- Digits with an optional point and exponent: the digits, and the power of ten. -/
def decimal? (cs : List Char) : Option (Nat × Int) := do
  let whole := cs.takeWhile Char.isDigit
  let rest := cs.dropWhile Char.isDigit
  let (fraction, rest) := match rest with
    | '.' :: rest => (rest.takeWhile Char.isDigit, rest.dropWhile Char.isDigit)
    | _ => ([], rest)
  let digits ← natural? 10 (whole ++ fraction)
  let exponent : Int ← match rest with
    | [] => some (0 : Int)
    | 'e' :: rest | 'E' :: rest =>
      let (sign, rest) : Int × List Char := match rest with
        | '-' :: rest => (-1, rest)
        | '+' :: rest => (1, rest)
        | _ => (1, rest)
      (natural? 10 rest).map fun n => sign * (n : Int)
    | _ => none
  return (digits, exponent - (fraction.length : Int))

/-- The finite double that a scalar is. -/
def double? (cs : List Char) : Option Double := do
  let (negative, cs) := match cs with
    | '-' :: rest => (true, rest)
    | '+' :: rest => (false, rest)
    | _ => (false, cs)
  let (digits, exponent) ← decimal? cs
  Double.ofDecimal negative digits exponent

def isUnbounded (s : String) : Bool :=
  [".inf", ".Inf", ".INF", "+.inf", "+.Inf", "+.INF", "-.inf", "-.Inf", "-.INF",
    ".nan", ".NaN", ".NAN"].contains s

/-- What an integer means by its size. -/
def integerMeaning (i : Int) : Option Meaning :=
  if -(pow2 63 : Int) ≤ i ∧ i < (pow2 64 : Int) then some (.number (.int i))
  else if -(pow2 127 : Int) ≤ i ∧ i < (pow2 128 : Int) then some .tooLarge
  else none

/-- What a plain scalar means. -/
def meaning (s : String) : Meaning :=
  if s.isEmpty || isNull s then .null
  else match bool? s with
    | some b => .bool b
    | none =>
      match (integer? s.toList).bind integerMeaning with
      | some m => m
      | none =>
        if zeroPadded s.toList then .string
        else if isUnbounded s then .unbounded
        else match double? s.toList with
          | some x => .number (.real x)
          | none => .string

end AgentDocs.Yaml
