import DraftSchema.Number.Decimal

/-!
The decimal text of a floating-point number: the fewest digits that read back as the same number,
and of those the nearest to it. Exponents from -4 to 15 are written out, with at least one digit
after the point; others take the form `d.ddde+XX` with at least two digits in the exponent.
-/
namespace DraftSchema.Decimal

/-- The place of the decimal point: the `p` with `10 ^ (p - 1) ≤ num / den < 10 ^ p`, for positive
`num` and `den`. -/
def pointOf (num den : Nat) : Int :=
  if den ≤ num then width (num / den) else 1 - (width ((den - 1) / num) : Int)

/-- The two multiples of `10 ^ exponent` around `num / den`, the nearer first and an even one
first when both are as near. -/
def neighbours (num den : Nat) (exponent : Int) : Numeral × Numeral :=
  let (n, d) := if 0 ≤ exponent then (num, den * Nat.pow 10 exponent.toNat)
    else (num * Nat.pow 10 (-exponent).toNat, den)
  let low := n / d
  let twice := 2 * (n % d)
  if twice < d ∨ (twice = d ∧ low % 2 = 0) then (⟨low, exponent⟩, ⟨low + 1, exponent⟩)
  else (⟨low + 1, exponent⟩, ⟨low, exponent⟩)

/-- The first of the candidates with `count`, `count + 1`, … digits that is accepted. -/
def search (accept : Numeral → Bool) (num den : Nat) (point : Int) :
    (fuel : Nat) → (count : Nat) → Option Numeral
  | 0, _ => none
  | fuel + 1, count =>
    let (near, far) := neighbours num den (point - count)
    if accept near then some near
    else if accept far then some far
    else search accept num den point fuel (count + 1)

/-- All decimal digits of `mantissa · 2 ^ exponent`. -/
def exactly (mantissa : Nat) (exponent : Int) : Numeral :=
  if 0 ≤ exponent then ⟨mantissa * Nat.pow 2 exponent.toNat, 0⟩
  else ⟨mantissa * Nat.pow 5 (-exponent).toNat, exponent⟩

/-- The shortest numeral that reads back as `mantissa · 2 ^ exponent`. Seventeen digits always do;
should none be found, all digits are given. -/
def shortest (mantissa : Nat) (exponent : Int) : Numeral :=
  let goal := Binary64.ofParts false mantissa exponent
  let num := if 0 ≤ exponent then mantissa * Nat.pow 2 exponent.toNat else mantissa
  let den := if 0 ≤ exponent then 1 else Nat.pow 2 (-exponent).toNat
  (search (fun x => x.toBinary64 false = goal) num den (pointOf num den) 17 1).getD
    (exactly mantissa exponent)

/-- The text of an unsigned numeral that is not zero. -/
def Numeral.toChars (x : Numeral) : List Char :=
  let all := Nat.toDigits 10 x.digits
  let point := (all.length : Int) + x.exponent
  let ds := (all.reverse.dropWhile (· = '0')).reverse
  if -4 < point ∧ point ≤ 16 then
    if point ≤ 0 then '0' :: '.' :: (List.replicate (-point).toNat '0' ++ ds)
    else if ds.length ≤ point.toNat then
      ds ++ List.replicate (point.toNat - ds.length) '0' ++ ['.', '0']
    else ds.take point.toNat ++ '.' :: ds.drop point.toNat
  else
    let e := point - 1
    let places := Nat.toDigits 10 e.natAbs
    let places := if places.length < 2 then '0' :: places else places
    ds.take 1 ++ (if ds.length = 1 then [] else '.' :: ds.drop 1)
      ++ 'e' :: (if e < 0 then '-' else '+') :: places

end DraftSchema.Decimal

namespace DraftSchema.Binary64

/-- The characters of a finite number. -/
def finiteChars (negative : Bool) (mantissa : Nat) (exponent : Int) : List Char :=
  let digits := if mantissa = 0 then ['0', '.', '0']
    else (Decimal.shortest mantissa exponent).toChars
  if negative then '-' :: digits else digits

/-- The text of a floating-point number. -/
def toText : Binary64 → String
  | .nan _ => "nan"
  | .infinity negative => if negative then "-inf" else "inf"
  | .finite negative m e _ => String.ofList (finiteChars negative m e)

end DraftSchema.Binary64
