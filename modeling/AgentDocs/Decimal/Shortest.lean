import AgentDocs.Decimal.Double

/-!
The shortest decimal that reads back as a given double, and its written form. For one digit,
two digits and so on the two neighbours of the value on that decimal grid are tried; the
first grid with a neighbour inside the rounding interval wins, and of two such neighbours
the nearer.
-/
namespace AgentDocs.Decimal

/-- `digits · 10 ^ exponent`. -/
structure Digits where
  digits : Nat
  exponent : Int
  deriving DecidableEq, Repr

/-- The least `k` with the positive ratio `num / den` below `10 ^ k`. -/
def magnitude (num den : Nat) : Int :=
  if den ≤ num then Double.digitCount (num / den) else 1 - (Double.digitCount (den / num) : Int)

/-- A ratio divided by `10 ^ k`. -/
def scaleDown (num den : Nat) (k : Int) : Nat × Nat :=
  if 0 ≤ k then (num, den * pow10 k.toNat) else (num * pow10 (-k).toNat, den)

/-- The rounding interval of a double, in quarters of its last place: the value, the lower end
and the upper end. -/
def interval (x : Double) : Nat × Nat × Nat :=
  let v := 4 * x.mantissa
  (v, if x.mantissa = pow2 52 ∧ -1074 < x.exponent then v - 1 else v - 2, v + 2)

/-- The neighbour of the double on the grid of multiples of `10 ^ k` that reads back as it. -/
def onGrid? (x : Double) (k : Int) : Option Digits :=
  let (v, lo, hi) := interval x
  -- one quarter of the last place is `unit / whole` grid steps
  let (num, den) := if 2 ≤ x.exponent then (pow2 (x.exponent - 2).toNat, 1)
    else (1, pow2 (2 - x.exponent).toNat)
  let (unit, whole) := scaleDown num den k
  let below := v * unit / whole
  let inside (c : Nat) : Bool :=
    if x.mantissa % 2 = 0 then lo * unit ≤ c * whole && c * whole ≤ hi * unit
    else lo * unit < c * whole && c * whole < hi * unit
  let toBelow := v * unit - below * whole
  let toAbove := (below + 1) * whole - v * unit
  match inside below && below != 0, inside (below + 1) with
  | true, true =>
    if toBelow < toAbove || (toBelow == toAbove && below % 2 == 0) then some ⟨below, k⟩
    else some ⟨below + 1, k⟩
  | true, false => some ⟨below, k⟩
  | false, true => some ⟨below + 1, k⟩
  | false, false => none

/-- Moves trailing zeros of the digits into the exponent. -/
def stripZeros : Nat → Digits → Digits
  | 0, d => d
  | fuel + 1, d =>
    if d.digits % 10 = 0 then stripZeros fuel ⟨d.digits / 10, d.exponent + 1⟩ else d

/-- The shortest digits of a double other than zero. -/
def shortest (x : Double) : Digits :=
  let (num, den) := x.ratio
  let top := magnitude num den
  let grids := (List.range 17).map fun (n : Nat) => top - 1 - (n : Int)
  stripZeros 20 ((grids.findSome? (onGrid? x)).getD ⟨x.mantissa, x.exponent⟩)

/-- How doubles are written: the place of the first digit is positional from `least` to `most`,
beyond them an exponent follows. -/
structure WrittenForm where
  least : Int
  most : Int
  plusSign : Bool

/-- From `0.00001` up to sixteen places before the point numbers are positional. -/
def signedExponent : WrittenForm := ⟨-5, 15, true⟩

/-- The same range, but a positive exponent has no sign. -/
def bareExponent : WrittenForm := ⟨-5, 15, false⟩

private def zeros (n : Nat) : String := String.ofList (List.replicate n '0')

/-- The written form; an integral value keeps `.0`. -/
def Double.write (format : WrittenForm) (x : Double) : String :=
  let sign := if x.negative then "-" else ""
  if x.mantissa = 0 then sign ++ "0.0"
  else
    let d := shortest x
    let ds := Nat.toDigits 10 d.digits
    let first : Int := (ds.length : Int) + d.exponent - 1
    sign ++
      if first < format.least || format.most < first then
        let exponent := (if 0 ≤ first && format.plusSign then "+" else "") ++ toString first
        match ds with
        | [] => ""
        | [c] => String.singleton c ++ "e" ++ exponent
        | c :: rest => String.singleton c ++ "." ++ String.ofList rest ++ "e" ++ exponent
      else if 0 ≤ d.exponent then String.ofList ds ++ zeros d.exponent.toNat ++ ".0"
      else if 0 ≤ first then
        String.ofList (ds.take (first + 1).toNat) ++ "." ++ String.ofList (ds.drop (first + 1).toNat)
      else "0." ++ zeros (-first - 1).toNat ++ String.ofList ds

end AgentDocs.Decimal
