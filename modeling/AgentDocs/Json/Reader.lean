import AgentDocs.Json.Value

/-!
Reading JSON texts. The reader is strict: no comments, no trailing commas, no leading zeros,
no control characters in strings, and nothing but blanks after the value. It keeps the
members of objects as written, repeated keys included.

Integers that fit 64 bits stay integers. A number with a point or an exponent takes at most
the first digits that fit 64 bits as its significand; the significand and the power of ten
are rounded to doubles first, then their product or quotient.
-/
namespace AgentDocs.Json
open Decimal

/-- The blanks between tokens. -/
def skipBlanks (cs : List Char) : List Char :=
  cs.dropWhile fun c => c = ' ' || c = '\n' || c = '\r' || c = '\t'

def hexValue? (c : Char) : Option Nat :=
  if '0' ≤ c ∧ c ≤ '9' then some (c.toNat - 48)
  else if 'a' ≤ c ∧ c ≤ 'f' then some (c.toNat - 87)
  else if 'A' ≤ c ∧ c ≤ 'F' then some (c.toNat - 55)
  else none

/-- Four hexadecimal digits. -/
def unit? : List Char → Option (Nat × List Char)
  | a :: b :: c :: d :: rest => do
    let a ← hexValue? a
    let b ← hexValue? b
    let c ← hexValue? c
    let d ← hexValue? d
    return (((a * 16 + b) * 16 + c) * 16 + d, rest)
  | _ => none

/-- The character of an escape, after its backslash. Units from `D800` to `DFFF` count only as a
pair of a high and a low one. -/
def escape? : List Char → Option (Char × List Char)
  | '"' :: rest => some ('"', rest)
  | '\\' :: rest => some ('\\', rest)
  | '/' :: rest => some ('/', rest)
  | 'b' :: rest => some ('\x08', rest)
  | 'f' :: rest => some ('\x0c', rest)
  | 'n' :: rest => some ('\n', rest)
  | 'r' :: rest => some ('\r', rest)
  | 't' :: rest => some ('\t', rest)
  | 'u' :: rest => do
    let (n, rest) ← unit? rest
    if n < 0xD800 ∨ 0xDFFF < n then some (Char.ofNat n, rest)
    else if 0xDBFF < n then none
    else match rest with
      | '\\' :: 'u' :: rest =>
        let (low, rest) ← unit? rest
        if 0xDC00 ≤ low ∧ low ≤ 0xDFFF then
          some (Char.ofNat (0x10000 + (n - 0xD800) * 0x400 + (low - 0xDC00)), rest)
        else none
      | _ => none
  | _ => none

/-- The rest of a string, after its opening quote; the fuel bounds the number of characters. -/
def stringTail? : Nat → List Char → Option (List Char × List Char)
  | 0, _ => none
  | _ + 1, [] => none
  | fuel + 1, c :: rest =>
    if c = '"' then some ([], rest)
    else if c = '\\' then do
      let (c, rest) ← escape? rest
      let (cs, rest) ← stringTail? fuel rest
      return (c :: cs, rest)
    else if c.toNat < 0x20 then none
    else do
      let (cs, rest) ← stringTail? fuel rest
      return (c :: cs, rest)

/-- A string, after its opening quote. -/
def string? (cs : List Char) : Option (String × List Char) :=
  (stringTail? (cs.length + 1) cs).map fun (s, rest) => (String.ofList s, rest)

/-- The value of leading digits while it stays below `2 ^ 64`, their number, and the rest. -/
def digits (value count : Nat) : List Char → Nat × Nat × List Char
  | [] => (value, count, [])
  | c :: rest =>
    if c.isDigit then
      let next := value * 10 + (c.toNat - 48)
      if next < pow2 64 then digits next (count + 1) rest else (value, count, c :: rest)
    else (value, count, c :: rest)

/-- `significand · 10 ^ exponent` in steps of doubles: the significand is rounded, powers beyond
308 are divided off one by one, and the last power is rounded before it is applied. -/
def compose (negative : Bool) (significand : Nat) (exponent : Int) : Option Double := do
  let start ← Double.ofRatio negative significand 1
  let power (k : Nat) := Double.ofRatio false (pow10 k) 1
  if 308 < exponent then
    if significand = 0 then return start else none
  else if 0 ≤ exponent then start.mul (← power exponent.toNat)
  else
    let steps := min ((-exponent).toNat / 309 + 1) 4
    let x ← lower steps start exponent
    return x
where
  lower : Nat → Double → Int → Option Double
    | 0, x, _ => some (Double.zero x.negative)
    | n + 1, x, e => do
      if -308 ≤ e then x.div (← Double.ofRatio false (pow10 (-e).toNat) 1)
      else if x.mantissa = 0 then return x
      else lower n (← x.div (← Double.ofRatio false (pow10 308) 1)) (e + 308)

/-- The digits of an exponent, cut off once they leave 32 bits. -/
def exponentDigits (cs : List Char) : Nat × Bool × List Char :=
  let ds := cs.takeWhile Char.isDigit
  let value := ds.foldl (fun acc c => min (acc * 10 + (c.toNat - 48)) (pow2 31)) 0
  (value, pow2 31 ≤ value, cs.dropWhile Char.isDigit)

/-- A number that has an exponent, after the `e`. -/
def exponent? (negative : Bool) (significand : Nat) (start : Int) (cs : List Char) :
    Option (Number × List Char) :=
  let (down, cs) := match cs with
    | '+' :: rest => (false, rest)
    | '-' :: rest => (true, rest)
    | _ => (false, cs)
  match cs with
  | [] => none
  | c :: _ =>
    if !c.isDigit then none
    else
      let (value, tooLarge, rest) := exponentDigits cs
      if tooLarge then
        if significand ≠ 0 ∧ !down then none
        else some (.real (Decimal.Double.zero negative), rest)
      else
        let e : Int := if down then start - value else start + value
        (compose negative significand e).map fun x => (.real x, rest)

/-- A number with a point, after the point. Digits that no longer fit are skipped. -/
def fraction? (negative : Bool) (significand : Nat) (start : Int) (cs : List Char) :
    Option (Number × List Char) :=
  match cs with
  | c :: _ =>
    if !c.isDigit then none
    else
      let (value, count, rest) := digits significand 0 cs
      let rest := rest.dropWhile Char.isDigit
      let e : Int := start - count
      match rest with
      | 'e' :: rest | 'E' :: rest => exponent? negative value e rest
      | _ => (compose negative value e).map fun x => (.real x, rest)
  | [] => none

/-- A number after its sign. -/
def magnitude? (negative : Bool) (cs : List Char) : Option (Number × List Char) :=
  match cs with
  | '0' :: c :: rest => if c.isDigit then none else tail 0 0 (c :: rest)
  | '0' :: [] => tail 0 0 []
  | c :: _ =>
    if c.isDigit then
      let (value, _, rest) := digits 0 0 cs
      let skipped := (rest.takeWhile Char.isDigit).length
      tail value skipped (rest.dropWhile Char.isDigit)
    else none
  | [] => none
where
  tail (value skipped : Nat) (rest : List Char) : Option (Number × List Char) :=
    match rest with
    | '.' :: rest => fraction? negative value skipped rest
    | 'e' :: rest | 'E' :: rest => exponent? negative value skipped rest
    | rest =>
      if skipped ≠ 0 then (compose negative value skipped).map fun x => (.real x, rest)
      else if !negative then some (.int value, rest)
      else if value = 0 ∨ pow2 63 < value then
        (compose true value 0).map fun x => (.real x, rest)
      else some (.int (-value), rest)

def number? : List Char → Option (Number × List Char)
  | '-' :: rest => magnitude? true rest
  | cs => magnitude? false cs

/-- Removes a word from the front. -/
def word? (word : List Char) (cs : List Char) : Option (List Char) :=
  if word.isPrefixOf cs then some (cs.drop word.length) else none

mutual
/-- A value after blanks. `depth` bounds the nesting, `fuel` the number of steps. -/
def value? (fuel depth : Nat) (cs : List Char) : Option (Json × List Char) :=
  match fuel with
  | 0 => none
  | fuel + 1 =>
    match skipBlanks cs with
    | [] => none
    | c :: rest =>
      if c = 'n' then (word? ['u', 'l', 'l'] rest).map fun rest => (.null, rest)
      else if c = 't' then (word? ['r', 'u', 'e'] rest).map fun rest => (.bool true, rest)
      else if c = 'f' then (word? ['a', 'l', 's', 'e'] rest).map fun rest => (.bool false, rest)
      else if c = '"' then (string? rest).map fun (s, rest) => (.string s, rest)
      else if c = '[' then
        match depth with
        | 0 => none
        | depth + 1 =>
          match skipBlanks rest with
          | ']' :: rest => some (.array [], rest)
          | rest => (items? fuel depth rest).map fun (vs, rest) => (.array vs, rest)
      else if c = '{' then
        match depth with
        | 0 => none
        | depth + 1 =>
          match skipBlanks rest with
          | '}' :: rest => some (.object [], rest)
          | rest => (members? fuel depth rest).map fun (ms, rest) => (.object ms, rest)
      else (number? (c :: rest)).map fun (n, rest) => (.number n, rest)

/-- The items of an array, up to its closing bracket. -/
def items? (fuel depth : Nat) (cs : List Char) : Option (List Json × List Char) :=
  match fuel with
  | 0 => none
  | fuel + 1 =>
    match value? fuel depth cs with
    | none => none
    | some (v, rest) =>
      match skipBlanks rest with
      | ',' :: rest => (items? fuel depth rest).map fun (vs, rest) => (v :: vs, rest)
      | ']' :: rest => some ([v], rest)
      | _ => none

/-- The members of an object, up to its closing brace. -/
def members? (fuel depth : Nat) (cs : List Char) : Option (List (String × Json) × List Char) :=
  match fuel with
  | 0 => none
  | fuel + 1 =>
    match skipBlanks cs with
    | '"' :: rest =>
      match string? rest with
      | none => none
      | some (key, rest) =>
        match skipBlanks rest with
        | ':' :: rest =>
          match value? fuel depth rest with
          | none => none
          | some (v, rest) =>
            match skipBlanks rest with
            | ',' :: rest => (members? fuel depth rest).map fun (ms, rest) => ((key, v) :: ms, rest)
            | '}' :: rest => some ([(key, v)], rest)
            | _ => none
        | _ => none
    | _ => none
end

/-- The nesting that texts may have. -/
def depthLimit : Nat := 127

/-- The value that a text holds, members as written. -/
def readRaw? (text : String) : Option Json :=
  let cs := text.toList
  match value? (2 * cs.length + 2) depthLimit cs with
  | some (v, rest) => if (skipBlanks rest).isEmpty then some v else none
  | none => none

/-- The value that a text holds, objects in canonical form. -/
def read? (text : String) : Option Json := (readRaw? text).map canonical

end AgentDocs.Json
