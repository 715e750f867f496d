/-!
Binary floating point with 53 bits of precision, as exact numbers: a finite double is a
sign, a mantissa and a power of two. A ratio is rounded to the nearest double, a tie to the
even mantissa; everything is computed on natural numbers.
-/
namespace AgentDocs.Decimal

def pow2 (n : Nat) : Nat := Nat.pow 2 n

def pow10 (n : Nat) : Nat := Nat.pow 10 n

/-- The double `± mantissa · 2 ^ exponent`, with `mantissa < 2 ^ 53`, `-1074 ≤ exponent`, and
`2 ^ 52 ≤ mantissa` unless the exponent is least. -/
structure Double where
  negative : Bool
  mantissa : Nat
  exponent : Int
  deriving DecidableEq, Repr, Inhabited

namespace Double

def zero (negative : Bool) : Double := ⟨negative, 0, -1074⟩

def neg (x : Double) : Double := { x with negative := !x.negative }

/-- The quotient rounded to the nearest integer, a half to the even one. -/
def roundHalfEven (num den : Nat) : Nat :=
  let q := num / den
  let r := num % den
  if 2 * r < den then q
  else if den < 2 * r then q + 1
  else q + q % 2

/-- A ratio divided by `2 ^ e`. -/
def scaleDown (num den : Nat) (e : Int) : Nat × Nat :=
  if 0 ≤ e then (num, den * pow2 e.toNat) else (num * pow2 (-e).toNat, den)

/-- The double nearest to `num / den`; none if it would exceed the greatest one. -/
def ofRatio (negative : Bool) (num den : Nat) : Option Double :=
  if num = 0 then some (zero negative)
  else
    let guess : Int := (num.log2 : Int) - den.log2 - 52
    let (n, d) := scaleDown num den guess
    let e : Int := max (if n / d < pow2 52 then guess - 1 else guess) (-1074)
    let (n, d) := scaleDown num den e
    let m := roundHalfEven n d
    let (m, e) := if m = pow2 53 then (pow2 52, e + 1) else (m, e)
    if e ≤ 971 then some ⟨negative, m, e⟩ else none

/-- The number of decimal digits. -/
def digitCount (n : Nat) : Nat := (Nat.toDigits 10 n).length

/-- The double nearest to `digits · 10 ^ exponent`. Beyond 310 digits before the point the value
is out of range, and with 330 zeros behind it it is zero, so no huge power is ever computed. -/
def ofDecimal (negative : Bool) (digits : Nat) (exponent : Int) : Option Double :=
  if digits = 0 then some (zero negative)
  else
    let size := (digitCount digits : Int) + exponent
    if 310 < size then none
    else if size < -330 then some (zero negative)
    else if 0 ≤ exponent then ofRatio negative (digits * pow10 exponent.toNat) 1
    else ofRatio negative digits (pow10 (-exponent).toNat)

/-- The magnitude as a ratio. -/
def ratio (x : Double) : Nat × Nat :=
  if 0 ≤ x.exponent then (x.mantissa * pow2 x.exponent.toNat, 1)
  else (x.mantissa, pow2 (-x.exponent).toNat)

def mul (x y : Double) : Option Double :=
  let (a, b) := x.ratio
  let (c, d) := y.ratio
  ofRatio (x.negative != y.negative) (a * c) (b * d)

/-- The quotient by a double other than zero. -/
def div (x y : Double) : Option Double :=
  let (a, b) := x.ratio
  let (c, d) := y.ratio
  ofRatio (x.negative != y.negative) (a * d) (b * c)

end Double
end AgentDocs.Decimal
