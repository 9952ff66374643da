import DraftSchema.Number.Arithmetic

/-!
Powers of floating-point numbers. A power that is rational is taken exactly and rounded once; any
other one is computed from logarithm and exponential with many more digits than the result has, so
that it rounds to the nearest number as well.
-/
namespace DraftSchema

/-! ## Fixed-point numbers -/

namespace Fixed

/-- How many binary digits stand after the point. -/
def places : Nat := 320

/-- One. -/
def one : Int := Nat.pow 2 places

/-- A product. -/
def mul (a b : Int) : Int := a * b / one

/-- The sum `z + z³/3 + z⁵/5 + …` over a number of terms; `power` is the next power of `z`. -/
def oddSeries (square : Int) : (terms : Nat) → (power : Int) → (divisor : Int) → Int
  | 0, _, _ => 0
  | terms + 1, power, divisor =>
    power / divisor + oddSeries square terms (mul power square) (divisor + 2)

/-- The logarithm of a quotient between a half and two: with `z = (a - b) / (a + b)` it is twice the
sum of the odd powers of `z` over their exponents. -/
def logQuotient (a b : Int) : Int :=
  let z := (a - b) * one / (a + b)
  2 * oddSeries (mul z z) 120 z 1

/-- The logarithm of two. -/
def logTwo : Int := logQuotient 2 1

/-- The logarithm of `mantissa · 2 ^ exponent`, for a positive mantissa. -/
def log (mantissa : Nat) (exponent : Int) : Int :=
  let k := mantissa.log2
  (exponent + k) * logTwo + logQuotient mantissa (Nat.pow 2 k)

/-- The sum `1 + x + x²/2 + …` over a number of terms; `term` is the next one. -/
def expSeries (x : Int) : (terms : Nat) → (term : Int) → (next : Int) → Int
  | 0, _, _ => 0
  | terms + 1, term, next => term + expSeries x terms (mul term x / next) (next + 1)

/-- The exponential of a number between zero and one. -/
def exp (x : Int) : Int := expSeries x 90 one 1

end Fixed

namespace Binary64

/-! ## Exact powers -/

/-- The greatest `r` with `r² ≤ n`, from the leading binary digit down. -/
def rootFrom (n : Nat) : (digits : Nat) → (r : Nat) → Nat
  | 0, r => r
  | digits + 1, r =>
    let c := r + Nat.pow 2 digits
    rootFrom n digits (if c * c ≤ n then c else r)

/-- The root of a square. -/
def squareRoot? (n : Nat) : Option Nat :=
  let r := rootFrom n (n.log2 / 2 + 1) 0
  if r * r = n then some r else none

/-- The number `mantissa · 2 ^ exponent` with its root taken a number of times, if that is exact. -/
def root? : (times : Nat) → (mantissa : Nat) → (exponent : Int) → Option (Nat × Int)
  | 0, m, e => some (m, e)
  | times + 1, m, e =>
    let (m, e) := if e % 2 = 0 then (m, e) else (2 * m, e - 1)
    match squareRoot? m with
    | some r => root? times r (e / 2)
    | none => none

/-- The largest numerator of an exponent whose power is taken exactly before it is rounded. -/
def exactPowerLimit : Nat := 4096

/-- The most roots that a floating-point number other than a power of two can have in a row. -/
def rootLimit : Nat := 6

/-- The exact power of `mantissa · 2 ^ exponent`, if it is rational and not too long. -/
def exactPower? (mantissa : Nat) (exponent : Int) (y : Rat) : Option Rat :=
  if exactPowerLimit < y.num.natAbs ∨ rootLimit < y.den.log2 then none
  else
    match root? y.den.log2 mantissa exponent with
    | some (m, e) =>
      let p := y.num.natAbs
      let n := Nat.pow m p
      let shift := e * p
      let q : Rat := if 0 ≤ shift then ((n * Nat.pow 2 shift.toNat : Nat) : Rat)
        else mkRat n (Nat.pow 2 (-shift).toNat)
      some (if y.num < 0 then q⁻¹ else q)
    | none => none

/-! ## All powers -/

/-- The power of `mantissa · 2 ^ exponent`, for a positive mantissa, by way of logarithms. Far
beyond the range no exponential is taken. -/
def nearPower (negative : Bool) (mantissa : Nat) (exponent : Int) (y : Rat) : Binary64 :=
  let t := (y * Fixed.log mantissa exponent).floor
  if 800 * Fixed.one < t then .infinity negative
  else if t < -800 * Fixed.one then zero negative
  else
    let n := t.fdiv Fixed.logTwo
    let x := Fixed.exp (t - n * Fixed.logTwo)
    let shift := n - Fixed.places
    if 0 ≤ shift then ofQuotient negative (x.toNat * Nat.pow 2 shift.toNat) 1
    else ofQuotient negative x.toNat (Nat.pow 2 (-shift).toNat)

/-- The power of a positive number, with the given sign. -/
def powerOf (negative : Bool) (mantissa : Nat) (exponent : Int) (y : Rat) : Binary64 :=
  match exactPower? mantissa exponent y with
  | some q => ofRat negative (signed negative q)
  | none => nearPower negative mantissa exponent y

/-- What a power comes to. -/
inductive Power where
  | real (x : Binary64)
  /-- Zero has no negative powers. -/
  | divided
  /-- The power is beyond every floating-point number. -/
  | tooLarge
  /-- The power of a negative number to a broken exponent is not real. -/
  | imaginary
  /-- A power that is not real is beyond every floating-point number as well. -/
  | imaginaryTooLarge
  deriving DecidableEq

/-- Whether a rational is an odd whole number. -/
def isOdd (y : Rat) : Bool := y.den = 1 && y.num % 2 ≠ 0

/-- A power of a finite number to a finite exponent that is not zero. -/
def finitePower (negative : Bool) (mantissa : Nat) (exponent : Int) (y : Rat) : Power :=
  let odd := isOdd y
  if mantissa = 0 then
    if y < 0 then .divided else .real (zero (negative && odd))
  else
    let real := !negative || y.den = 1
    match powerOf (negative && odd) mantissa exponent y with
    | .infinity _ => if real then .tooLarge else .imaginaryTooLarge
    | z => if real then .real z else .imaginary

/-- A power to an infinite exponent: one for a base of size one, and else the limit. -/
def infinitePower (x : Binary64) (negative : Bool) : Binary64 :=
  match x.abs.denote with
  | .exact a => if a = 1 then one else if (1 < a) = !negative then .infinity false else zero false
  | .infinite _ => if negative then zero false else .infinity false
  | .undefined => x

/-- A power of an infinity to a finite exponent that is not zero. -/
def powerOfInfinity (negative : Bool) (y : Rat) : Binary64 :=
  let odd := isOdd y
  if y < 0 then zero (negative && odd) else .infinity (negative && odd)

/-- `x` to the power of `y`. A zero exponent gives one whatever the base, and the base one gives one
whatever the exponent. -/
def pow (x y : Binary64) : Power :=
  if y.isZero || x = one then .real one
  else
    match x, y with
    | .nan payload, _ => .real (.nan payload)
    | _, .nan payload => .real (.nan payload)
    | x, .infinity negative => .real (infinitePower x negative)
    | .infinity negative, y => .real (powerOfInfinity negative (y.toRat?.getD 0))
    | .finite negative m e _, y => finitePower negative m e (y.toRat?.getD 0)

end Binary64

end DraftSchema
